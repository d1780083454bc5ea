import Glossator.Text.Basic

/-!
# Comments in Java text

Line comments run up to the newline, block comments up to and including the first closer after
their opener, and both to the end of the text if nothing ends them. Inside string and character
literals nothing opens a comment; a literal ends at its quote or at a newline, and a backslash
protects the character after it.
-/

set_option autoImplicit false

namespace Glossator.Java

/-- What follows a block comment whose opener has been read. -/
def afterBlockComment : Text → Text
  | [] => []
  | '*' :: '/' :: rest => rest
  | _ :: rest => afterBlockComment rest

/-- What follows a literal whose opening quote has been read. -/
def afterLiteral (quote : Char) : Text → Text
  | [] => []
  | '\\' :: [] => []
  | '\\' :: _ :: rest => afterLiteral quote rest
  | c :: rest => if c = quote || c = '\n' then rest else afterLiteral quote rest

theorem length_afterBlockComment_le (t : Text) : (afterBlockComment t).length ≤ t.length := by
  fun_induction afterBlockComment t <;> grind

theorem length_afterLiteral_le (quote : Char) (t : Text) :
    (afterLiteral quote t).length ≤ t.length := by
  fun_induction afterLiteral quote t <;> grind

theorem length_dropWhile_le (p : Char → Bool) (t : Text) : (t.dropWhile p).length ≤ t.length :=
  (List.dropWhile_sublist p).length_le

/-- The comments of the end of a text that is `total` characters long, in order. -/
def commentsFrom (total : Nat) : Text → List Span
  | [] => []
  | '/' :: '/' :: rest =>
    let after := rest.dropWhile (· ≠ '\n')
    ⟨total - (rest.length + 2), total - after.length⟩ :: commentsFrom total after
  | '/' :: '*' :: rest =>
    let after := afterBlockComment rest
    ⟨total - (rest.length + 2), total - after.length⟩ :: commentsFrom total after
  | c :: rest =>
    if c = '"' || c = '\'' then commentsFrom total (afterLiteral c rest)
    else commentsFrom total rest
termination_by t => t.length
decreasing_by
  · have := length_dropWhile_le (· ≠ '\n') rest
    simp only [List.length_cons]
    omega
  · have := length_afterBlockComment_le rest
    simp only [List.length_cons]
    omega
  · have := length_afterLiteral_le c rest
    simp only [List.length_cons]
    omega
  · simp only [List.length_cons]
    omega

/-- A text without slashes and quotes has no comments. -/
theorem commentsFrom_eq_nil (total : Nat) {t : Text}
    (h : ∀ c ∈ t, c ≠ '/' ∧ c ≠ '"' ∧ c ≠ '\'') : commentsFrom total t = [] := by
  fun_induction commentsFrom total t with
  | case1 => rfl
  | case2 rest after ih => exact absurd rfl (h '/' List.mem_cons_self).1
  | case3 rest after ih => exact absurd rfl (h '/' List.mem_cons_self).1
  | case4 c rest _ _ hquote ih =>
    obtain ⟨-, hdouble, hsingle⟩ := h c List.mem_cons_self
    simp [hdouble, hsingle] at hquote
  | case5 c rest _ _ hquote ih => exact ih fun d hd => h d (List.mem_cons_of_mem c hd)

/-- The comments of a text, in order. -/
def comments (t : Text) : List Span := commentsFrom t.length t

/-- The offset lies in the first of the spans that ends behind it. -/
def inComment (spans : List Span) (offset : Nat) : Bool :=
  (spans.find? fun s => offset < s.stop).any (·.contains offset)

end Glossator.Java
