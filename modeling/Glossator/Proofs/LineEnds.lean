import Glossator.Proofs.Java.MethodLineEnds
import Glossator.Proofs.Parsing
import Glossator.Proofs.Prompt

/-!
# Parsing texts with returns

Java and prompts are parsed alike whether lines end with a newline or with a carriage return and a
newline; what is copied from the text has the returns.

* `Prompt.split?_crlf`: prompts are cut at the same line.
* `parse_crlf`: Java files and prompts give the same records with the returns.
-/

set_option autoImplicit false

namespace Glossator

open Text

/-- The record of a prompt with the returns in both halves. -/
def FunctionRecord.crlfHalves (r : FunctionRecord) : FunctionRecord :=
  { r with
    fullText := r.fullText.map fun s => String.ofList (Text.crlf s.toList)
    docstring := r.docstring.map fun s => String.ofList (Text.crlf s.toList) }

namespace Prompt

variable {t : Text}

/-- What a list is cut into where a test fails first, if the items are changed in a way that the
test does not see. -/
theorem cut_map_of_forall {α : Type} {f : α → α} {p : α → Bool} {l : List α}
    (h : ∀ x ∈ l, p (f x) = p x) : (l.map f).takeWhile p = (l.takeWhile p).map f ∧
      (l.map f).dropWhile p = (l.dropWhile p).map f := by
  induction l with
  | nil => exact ⟨rfl, rfl⟩
  | cons x l ih =>
    obtain ⟨htake, hdrop⟩ := ih fun y hy => h y (List.mem_cons_of_mem x hy)
    have hx := h x List.mem_cons_self
    by_cases hp : p x = true
    · simp [hx, hp, htake, hdrop]
    · simp [hx, hp]

/-- A line looks like code with the return as it does without. -/
theorem bareLine_crlf {line : Text} (hline : line ∈ t.linesWithEnds) :
    bareLine (crlf line) = bareLine line := by
  have hends : bareLine (crlf line) = crlf (bareLine line) := dropEndWhile_crlf rfl line
  rw [hends, crlf_eq_self (not_mem_bareLine (areLines_linesWithEnds t) hline)]

/-- A prompt is cut at the same line. -/
theorem split?_crlf (t : Text) :
    split? (crlf t) = (split? t).map fun (prose, code) => (crlf prose, crlf code) := by
  obtain ⟨htake, hdrop⟩ := cut_map_of_forall (f := crlf) (l := t.linesWithEnds)
    (p := fun line => !looksLikeCode (bareLine line)) fun line hline => by rw [bareLine_crlf hline]
  have hflatten (lines : List Text) : (lines.map crlf).flatten = crlf lines.flatten := by
    induction lines with
    | nil => rfl
    | cons line lines ih =>
      rw [List.map_cons, List.flatten_cons, List.flatten_cons, crlf_append, ih]
  simp only [split?, linesWithEnds_crlf, htake, hdrop]
  cases t.linesWithEnds.dropWhile fun line => !looksLikeCode (bareLine line) with
  | nil => rfl
  | cons line below =>
    have hcode := hflatten (line :: below)
    rw [List.map_cons] at hcode ⊢
    simp only [hcode, hflatten, Option.map_some]

theorem record?_crlf (t : Text) :
    record? (crlf t) = (record? t).map FunctionRecord.crlfHalves := by
  rw [record?, record?, split?_crlf, Option.map_map, Option.map_map]
  refine congrArg (Option.map · (split? t)) (funext fun halves => ?_)
  simp [FunctionRecord.crlfHalves, trim_crlf]

end Prompt

/-- A text without returns is parsed alike with a return before each newline. As Java it is, if no
backslash protects a newline and no line that ends in `throws` stands before one that starts with
the brace or the semicolon; as a prompt in any case. -/
theorem parse_crlf (t : Text) (hreturn : '\r' ∉ t) :
    (Java.NoSplice t → ¬ Java.ThrowsNothing t →
      parse .java (crlf t) = (parse .java t).map (List.map FunctionRecord.crlf)) ∧
    parse .prompt (crlf t) = (parse .prompt t).map (List.map FunctionRecord.crlfHalves) := by
  refine ⟨fun hsplice hthrows => ?_, ?_⟩
  · simp only [parse, Java.extract_crlf ⟨hreturn, hsplice, hthrows⟩]
    rfl
  · simp only [parse, Prompt.record?_crlf]
    cases Prompt.record? t <;> rfl

/-- A class with a comment, an annotation and a method that names its exceptions on a line of their
own. -/
def throwingMethod : Text :=
  "class C \x7b\n  /** a\n   * b */\n  @A\n  void f()\n      throws\n      E \x7b\n  \x7d\n\x7d\n".toList

theorem parse_crlf_throwingMethod : '\r' ∉ throwingMethod ∧ Java.NoSplice throwingMethod ∧
    ¬ Java.ThrowsNothing throwingMethod ∧ (Java.extract throwingMethod).length = 1 ∧
    parse .java (crlf throwingMethod) =
      (parse .java throwingMethod).map (List.map FunctionRecord.crlf) ∧
    parse .prompt (crlf throwingMethod) =
      (parse .prompt throwingMethod).map (List.map FunctionRecord.crlfHalves) := by
  have hreturn : '\r' ∉ throwingMethod := by decide +kernel
  have hsplice : Java.NoSplice throwingMethod := by
    unfold Java.NoSplice
    decide +kernel
  have hthrows : ¬ Java.ThrowsNothing throwingMethod := by
    rintro ⟨c, rfl | rfl, hinfix⟩ <;> revert hinfix <;> decide +kernel
  obtain ⟨hjava, hprompt⟩ := parse_crlf throwingMethod hreturn
  exact ⟨hreturn, hsplice, hthrows, by decide +kernel, hjava hsplice hthrows, hprompt⟩

/-- Behind `throws` a return and its newline stand for the names, which a newline alone does not. -/
example : Java.extract "class A \x7b\n void m() throws\n\x7b \x7d\n\x7d\n".toList = [] ∧
    (Java.extract (crlf "class A \x7b\n void m() throws\n\x7b \x7d\n\x7d\n".toList)).length = 1 := by
  decide +kernel

end Glossator
