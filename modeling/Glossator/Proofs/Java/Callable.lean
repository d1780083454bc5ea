import Glossator.Proofs.Java.Heading
import Glossator.Proofs.Java.OwnLine
import Glossator.Proofs.Java.ReturnType

/-!
# Constructors and methods in the body of a type

Where a constructor or a method begins with a line of the body of a type, and nothing above that
line reaches over it, its header is read there, whatever stands behind it. The return type that its
record then has may be another one than the type that is written.

* `Java.Callable`: the headers of constructors and methods, with modifiers, type parameters and a
  return type as they may be written.
* `Java.EndsAbove`, `Java.methodsAfter_suffix`: the search comes to a line that nothing above it
  reaches over.
* `Java.Callable.StandsIn.exists_mem_methods`: a constructor or a method is found where it stands.
* `Java.type_parameters_apart`: when a record shows the return type that is written.
-/

set_option autoImplicit false

namespace Glossator.Java

open Pattern Text

variable {before behind : Text}

/-- The characters of a readable declaration. -/
theorem isHeadingChar_of_isReadable {d : Text} (hend : ∀ c ∈ d.getLast?, isBlank c = true)
    (h : IsReadable (behindModifiers d)) : ∀ c ∈ d, isHeadingChar c = true := by
  have hread : (⟨none, d, 0⟩ : Cursor).Reads d ((⟨none, d, 0⟩ : Cursor).behind d) :=
    ⟨List.prefix_refl d, rfl⟩
  obtain ⟨parts, hmem⟩ := exists_mem_methodDeclaration hread hend h []
  obtain ⟨piece, hpiece, hchars⟩ := (reads_of_mem_outcomes hmem).reads
  rw [hread.unique hpiece]
  exact fun c hc => isHeadingChar_of_mayRead (hchars c hc)

/-- A text without parentheses may stand between those of parameters. -/
theorem nested_of_free {depth : Nat} {u : Text} (h : ∀ c ∈ u, (c ≠ '(' && c ≠ ')') = true) :
    (nested depth).InLanguage u := by
  cases depth with
  | zero => rwa [nested]
  | succ depth =>
    rw [nested, nested]
    exact ⟨u, [], h, ⟨[], List.forall_mem_nil _, rfl⟩, (List.append_nil u).symm⟩

/-- The header of a constructor or a method that begins with a line, up to the brace or the
semicolon behind it. -/
structure Callable where
  /-- Modifiers, type parameters and a return type, with blanks before and behind them. Blank lines
  above the header are part of it. -/
  declaration : Text
  group : Option Text
  type : Option Text
  name : Text
  /-- The blanks before the parameters. -/
  gap : Text
  parameters : Text
  /-- Blanks, and the exceptions perhaps. -/
  clause : Text
  mark : Char
  declaration_end : ∀ c ∈ declaration.getLast?, isBlank c = true
  declaration_readable : IsReadable (behindModifiers declaration)
  written : Written group type (behindModifiers declaration)
  name_ne : name ≠ []
  name_chars : ∀ c ∈ name, isWord c = true
  gap_blank : ∀ c ∈ gap, isBlank c = true
  parameters_nested : (nested 2).InLanguage parameters
  clause_read : clausePattern.InLanguage clause
  mark_eq : mark = '{' ∨ mark = ';'
  /-- Neither the name nor the type is a word of a statement. -/
  name_free : name ∉ reservedNames
  start_free : (words declaration).head?.getD name ∉ statementStarts
  type_free : ∀ t ∈ declaredText? declaration, ∀ w ∈ returnTypeWords t,
    w ∉ statementStarts ∧ w ∉ reservedNames

namespace Callable

/-- The header, from the start of the first line. -/
def heading (c : Callable) : Heading where
  indent := []
  declaration := c.declaration
  name := c.name
  gap := c.gap
  parameters := c.parameters
  clause := c.clause
  mark := c.mark
  indent_space := List.forall_mem_nil _
  declaration_chars := isHeadingChar_of_isReadable c.declaration_end c.declaration_readable
  declaration_end := c.declaration_end
  name_ne := c.name_ne
  name_chars := c.name_chars
  gap_blank := c.gap_blank
  parameters_match := parensMatch_of_nested c.parameters_nested
  clause_free d hd := ne_of_mayRead_clausePattern (mayRead_of_inLanguage
    (by simp [clausePattern, maybe, someOf, someBlanks, blanks, Pattern.text, Placeless])
    c.clause_read d hd)
  mark_eq := c.mark_eq

/-- What is called: the name with its parameters. -/
def call (c : Callable) : Text := calledText c.name c.parameters

end Callable

/-! ### Coming to a line -/

section

variable {src : Source} {scope : Option Scope} {s : Stretch} {types : List Span}

/-- No header that is read before a place, and no block behind one, reaches over the place. -/
def EndsAbove (t : Text) (place : Nat) : Prop :=
  ∀ i < place, ∀ m ∈ methodHeader.matchAt? t i,
    m.stop ≤ place ∧ ∀ e ∈ extent? t m, e.stop ≤ place

instance (t : Text) (place : Nat) : Decidable (EndsAbove t place) :=
  inferInstanceAs (Decidable (∀ i < place, ∀ m ∈ methodHeader.matchAt? t i,
    m.stop ≤ place ∧ ∀ e ∈ extent? t m, e.stop ≤ place))

/-- The search comes to a place that nothing before it reaches over. -/
theorem methodsAfter_suffix {place offset : Nat} (h : EndsAbove s.text place)
    (hle : offset ≤ place) (hlen : place ≤ s.text.length) :
    methodsAfter src scope s types place <:+ methodsAfter src scope s types offset := by
  -- what is left before the place gets less
  induction hn : place - offset using Nat.strong_induction_on generalizing offset with
  | _ n ih =>
    by_cases hnone : ∀ i, offset ≤ i → i < place → methodHeader.matchAt? s.text i = none
    · rw [methodsAfter_eq_of_forall hle hlen hnone]
    obtain ⟨m, hfind, hlt⟩ : ∃ m, (Finder.ofPattern methodHeader s.text).find? offset = some m ∧
        m.start < place := by
      by_contra hfind
      refine hnone fun i hi hlt => ?_
      cases hfirst : (Finder.ofPattern methodHeader s.text).find? offset with
      | none => exact Finder.find?_eq_none_iff.1 hfirst i hi (by omega)
      | some m =>
        have hge : place ≤ m.start := Nat.le_of_not_lt fun hlt => hfind ⟨m, hfirst, hlt⟩
        exact (Finder.find?_eq_some_iff.1 hfirst).2.2.2 i hi (by omega)
    obtain ⟨hstart, -, hmatch, -⟩ := Finder.find?_eq_some_iff.1 hfind
    obtain ⟨hstop, hextent⟩ := h m.start hlt m hmatch
    obtain ⟨title, hshape⟩ := MethodHeader.of_find? hfind
    have hforward := hshape.start_lt_stop
    cases hown : isOwnMethod src scope s types m with
    | true =>
      obtain ⟨e, he⟩ := hshape.exists_extent?
      have hheader := (ExtentOf.of_extent? hshape he).header_le
      rw [methodsAfter_of_own hfind hown he]
      exact (ih (place - e.stop) (by omega) (hextent e he) rfl).trans (List.suffix_cons _ _)
    | false =>
      rw [methodsAfter_of_not_own hfind hown]
      exact ih (place - m.stop) (by omega) hstop rfl

end

/-! ### Finding the header -/

theorem Heading.unmarked (h : Heading) (behind : Text) : Unmarked (h.text ++ behind) := by
  have hlist : h.text ++ behind =
      h.front ++ '(' :: (h.parameters ++ ')' :: (h.clause ++ [h.mark]) ++ behind) := by
    simp [Heading.text]
  rw [hlist]
  refine unmarked_of_stop (fun c hc => ?_) (by decide) (by decide)
  have hchar := h.isHeadingChar_of_mem_front c hc
  constructor <;> (rintro rfl; exact absurd hchar (by decide))

/-- Whatever match there is where a heading stands, it reports the pieces of the heading. -/
theorem Heading.exists_same_of_matchAt? (h : Heading) {m : Match HeaderPart}
    (hm : methodHeader.matchAt? (before ++ (h.text ++ behind)) before.length = some m) :
    ∃ k : Heading, h.Same k ∧ k.ReadBy before m := by
  obtain ⟨o, ho, rfl⟩ := exists_of_matchAt? hm
  rw [Cursor.inText_append] at ho
  obtain ⟨k, behind', hrest, hread⟩ := exists_heading_of_mem (h.unmarked behind) ho
  exact ⟨k, same_of_prefix (List.prefix_append _ _) ⟨behind', hrest.symm⟩, hread⟩

/-- At the start of a line, nothing needs to stand before a declaration. -/
theorem exists_mem_methodFront {c : Cursor} (hline : c.atLineStart = true) :
    ∃ parts, (⟨c, parts⟩ : Outcome HeaderPart) ∈ methodFront.outcomes ⟨c, []⟩ := by
  have hcomments : (⟨c, []⟩ : Outcome HeaderPart) ∈ methodComments.outcomes ⟨c, []⟩ :=
    mem_outcomes_orElse.2 (.inr (List.mem_singleton_self _))
  have hindentation (parts : List (HeaderPart × Span)) :
      (⟨c, parts⟩ : Outcome HeaderPart) ∈ indentation.outcomes ⟨c, parts⟩ :=
    mem_outcomes_many.2 ⟨[], List.forall_mem_nil _, List.nil_prefix, by simp⟩
  simp only [methodFront, methodAnnotations, append_eq, mem_outcomes_andThen, named,
    mem_outcomes_part]
  exact ⟨_, _, ⟨_, ⟨_, ⟨_, hcomments, _, self_mem_outcomes_star _ _, rfl⟩,
    mem_outcomes_lineStart.2 ⟨rfl, hline⟩⟩, hindentation _⟩, _, self_mem_outcomes_star _ _, rfl⟩

namespace Callable

theorem heading_text (c : Callable) : c.heading.text =
    c.declaration ++ (c.name ++ (c.gap ++ '(' :: (c.parameters ++ ')' :: c.clause) ++
      [c.mark])) := by
  simp [Heading.text, Heading.front, heading]

/-- What stands behind the declaration is read there. -/
theorem inLanguage_behindDeclaration (c : Callable) : behindDeclaration.InLanguage
    (c.name ++ (c.gap ++ '(' :: (c.parameters ++ ')' :: c.clause) ++ [c.mark])) := by
  have htail : methodTail.InLanguage (c.gap ++ '(' :: (c.parameters ++ ')' :: c.clause)) :=
    ⟨_, _, c.gap_blank, ⟨['('], _, rfl, ⟨c.parameters, _, c.parameters_nested,
      ⟨[')'], c.clause, rfl, c.clause_read, rfl⟩, rfl⟩, rfl⟩, rfl⟩
  have hmark : (c.mark = '{' || c.mark = ';') = true := by
    simpa using c.mark_eq
  exact ⟨c.name, _, inLanguage_someOf.2 ⟨c.name_ne, c.name_chars⟩,
    ⟨_, [c.mark], htail, ⟨_, hmark, rfl⟩, rfl⟩, rfl⟩

/-- At the start of a line, the header of a constructor or a method matches. -/
theorem exists_match (c : Callable) (hline : before = [] ∨ before.getLast? = some '\n')
    (behind : Text) : ∃ m,
      methodHeader.matchAt? (before ++ (c.heading.text ++ behind)) before.length = some m := by
  rw [← Option.isSome_iff_exists, ← Option.ne_none_iff_isSome, ne_eq, matchAt?_eq_none_iff,
    Cursor.inText_append]
  have hstart : (Cursor.between before (c.heading.text ++ behind)).atLineStart = true := by
    rcases hline with rfl | hline
    · rfl
    · simp [Cursor.atLineStart, hline]
  have hlanguage := c.inLanguage_behindDeclaration
  rw [heading_text, List.append_assoc] at hstart ⊢
  generalize c.name ++ (c.gap ++ '(' :: (c.parameters ++ ')' :: c.clause) ++ [c.mark]) =
    tail at hlanguage hstart ⊢
  have hread : (Cursor.between before (c.declaration ++ (tail ++ behind))).Reads c.declaration
      (.between (before ++ c.declaration) (tail ++ behind)) :=
    ⟨List.prefix_append _ _, (Cursor.behind_between _ _ _).symm⟩
  obtain ⟨parts, hfront⟩ := exists_mem_methodFront hstart
  obtain ⟨parts', hdeclaration⟩ :=
    exists_mem_methodDeclaration hread c.declaration_end c.declaration_readable parts
  obtain ⟨o, ho, -⟩ := exists_mem_outcomes_of_inLanguage
    (o := ⟨.between (before ++ c.declaration) (tail ++ behind), parts'⟩)
    (by simp [behindDeclaration, methodTail, named, word, nested, maybe, someOf, someBlanks, blanks,
      Pattern.text, Placeless]) hlanguage (List.prefix_append tail behind)
  obtain ⟨n, hname, hrest⟩ := mem_outcomes_andThen.1 ho
  obtain ⟨e, htail, hend⟩ := mem_outcomes_andThen.1 hrest
  exact List.ne_nil_of_mem (mem_outcomes_methodHeader.2
    ⟨_, hfront, _, hdeclaration, n, hname, e, htail, hend⟩)

/-- The match of a header reports the pieces of a constructor or a method. -/
structure ReadBy (c : Callable) (before t : Text) (m : Match HeaderPart) : Prop where
  start : m.start = before.length
  declaration : ∃ gap, (∀ e ∈ gap, isBlank e = true) ∧
    c.declaration = gap ++ m.text t .declaration
  returnType : m.text? t .returnType = declaredText? c.declaration
  name : m.text t .name = c.name
  name_start : (m.span? .name).map Span.start = some (before ++ c.declaration).length
  parameters : m.text t .parameters = c.parameters

theorem readBy_of_matchAt? (c : Callable) {m : Match HeaderPart}
    (hm : methodHeader.matchAt? (before ++ (c.heading.text ++ behind)) before.length = some m) :
    c.ReadBy before (before ++ (c.heading.text ++ behind)) m := by
  obtain ⟨k, hsame, hread⟩ := c.heading.exists_same_of_matchAt? hm
  have hdeclaration : c.declaration = k.indent ++ k.declaration := hsame.declaration
  have hindent : ∀ e ∈ k.indent, isBlank e = true := by
    intro e he
    rcases k.indent_space e he with rfl | rfl <;> decide
  have left {a b t : Text} (h : a ++ b <+: t) : a <+: t := (List.prefix_append a b).trans h
  have hparameters : before ++ k.indent ++ k.declaration ++ k.name ++ k.gap ++ ['('] ++
      k.parameters <+: before ++ (c.heading.text ++ behind) := by
    rw [hsame.text]
    exact ⟨')' :: (k.clause ++ k.mark :: behind), by simp [Heading.text, Heading.front]⟩
  have hname := left (left (left hparameters))
  have htext : m.text (before ++ (c.heading.text ++ behind)) .declaration = k.declaration :=
    Match.text_eq hread.declaration (left hname)
  obtain ⟨-, htype⟩ := declared_of_matchAt? (by simp) hm
  exact
    { start := hread.start
      declaration := ⟨k.indent, hindent, by rw [htext, hdeclaration]⟩
      returnType := by
        rw [htype, htext, declaredText?, declaredText?, hdeclaration,
          behindModifiers_blanks_append hindent]
      name := (Match.text_eq hread.name hname).trans hsame.name.symm
      name_start := by
        rw [hread.name, hdeclaration, ← List.append_assoc]
        rfl
      parameters := (Match.text_eq hread.parameters hparameters).trans hsame.parameters.symm }

section

variable {c : Callable} {t : Text} {m : Match HeaderPart}

/-- Without a type that is read, there is none. -/
theorem type_eq_none (c : Callable) (h : declaredText? c.declaration = none) : c.type = none := by
  have hread := declaredType?_of_written c.written c.declaration_readable
  rw [declaredType?, h, Option.bind_none] at hread
  cases htype : c.type with
  | none => rfl
  | some type =>
    obtain ⟨last, hlast⟩ := (c.written.type type htype).exists_lastTypeWord
    rw [htype, takenType?, hlast] at hread
    cases hread

/-- A constructor or a method declares something in the type that it stands in. -/
theorem ReadBy.isDeclaration (h : c.ReadBy before t m) {scope : Option Scope}
    (hscope : c.type = none → scope.any (·.name == c.name) = true) :
    isDeclaration scope t m = true := by
  obtain ⟨gap, hgap, hdeclaration⟩ := h.declaration
  have hwords : words (m.text t .declaration) = words c.declaration := by
    rw [hdeclaration, words_blanks_append hgap]
  have hname : reservedNames.contains c.name = false := by
    simpa using c.name_free
  have hstart : statementStarts.contains ((words c.declaration).head?.getD c.name) = false := by
    simpa using c.start_free
  simp only [Java.isDeclaration, h.name, hwords, hname, hstart, h.returnType, Bool.not_false,
    Bool.true_and]
  cases htype : declaredText? c.declaration with
  | none => exact hscope (c.type_eq_none htype)
  | some type =>
    simp only [Bool.not_eq_true', List.any_eq_false, Bool.or_eq_true, List.contains_iff_mem, not_or]
    exact c.type_free type htype

/-- A constructor or a method stands behind some text in the body of a type: it begins with a line
that nothing above it reaches over, its name is outside comments, it does not start within another
type, and without a type it has the name of the type it stands in. -/
structure StandsIn (c : Callable) (src : Source) (scope : Option Scope) (s : Stretch)
    (before behind : Text) : Prop where
  text : s.text = before ++ (c.heading.text ++ behind)
  line : before = [] ∨ before.getLast? = some '\n'
  above : EndsAbove s.text before.length
  outside_comments : src.isComment (s.start + (before ++ c.declaration).length) = false
  outside_types : (typeDeclarations src s).any (·.extent.contains before.length) = false
  constructor : c.type = none → scope.any (·.name == c.name) = true

variable {src : Source} {scope : Option Scope} {s : Stretch}

/-- A constructor or a method is found where it stands. -/
theorem StandsIn.exists_mem_methods (hc : c.StandsIn src scope s before behind) :
    ∃ m ∈ methods src scope s, c.ReadBy before s.text m.header := by
  obtain ⟨h, hmatch⟩ := c.exists_match hc.line behind
  have hread := c.readBy_of_matchAt? hmatch
  rw [← hc.text] at hmatch hread
  have hlen : before.length ≤ s.text.length := by simp [hc.text]
  have hfind : (Finder.ofPattern methodHeader s.text).find? before.length = some h :=
    Finder.find?_of_matchAt? hlen hmatch
  obtain ⟨title, htitle, hstart⟩ := Option.map_eq_some_iff.1 hread.name_start
  have hown : isOwnMethod src scope s ((typeDeclarations src s).map TypeDeclaration.extent) h =
      true := by
    have htypes : ((typeDeclarations src s).map TypeDeclaration.extent).any
        (·.contains before.length) = false := by
      rw [List.any_map]
      exact hc.outside_types
    rw [isOwnMethod, htitle, Option.any_some, hstart, hc.outside_comments, hread.start, htypes,
      hread.isDeclaration hc.constructor]
    rfl
  obtain ⟨_, hshape⟩ := MethodHeader.of_find? hfind
  obtain ⟨e, he⟩ := hshape.exists_extent?
  refine ⟨⟨h, e⟩, ?_, hread⟩
  rw [methods_eq_methodsAfter]
  refine (methodsAfter_suffix hc.above (Nat.zero_le _) hlen).subset ?_
  rw [methodsAfter_of_own hfind hown he]
  exact List.mem_cons_self

/-- The record of a method that is read as a constructor or a method. -/
theorem ReadBy.shows {f : Finding} (hf : f ∈ findings src)
    (h : c.ReadBy before f.stretch.text f.method.header) :
    (f.record src).name = some (String.ofList c.name) ∧
      Shows (f.record src) (takenType? c.group c.type) c.call := by
  obtain ⟨-, hreturn, hsignature⟩ := declared_of_mem_findings hf
  obtain ⟨gap, hgap, hdeclaration⟩ := h.declaration
  have htype : declaredType? f.declaration = takenType? c.group c.type := by
    have hbehind : behindModifiers f.declaration = behindModifiers c.declaration := by
      rw [hdeclaration, behindModifiers_blanks_append hgap]
      rfl
    rw [declaredType?, declaredText?, hbehind]
    exact declaredType?_of_written c.written c.declaration_readable
  have hcall : f.call = c.call := by
    rw [Finding.call, h.name, h.parameters, call]
  rw [htype] at hreturn hsignature
  rw [hcall] at hsignature
  refine ⟨?_, hreturn, hsignature⟩
  simp only [Finding.record, Method.record, h.name]

end

end Callable

/-- The methods found in the body of a type that is opened are found in the file. -/
theorem mem_findings_of_mem_openTypes {src : Source} {o : OpenType} {m : Method}
    (ho : o ∈ openTypes src none (.whole src.text)) (hm : m ∈ methods src (some o.scope) o.body) :
    (⟨some o.scope, o.body, m⟩ : Finding) ∈ findings src := by
  have hheaders : ¬ (typeHeaders src (.whole src.text)).isEmpty = true := by
    intro hnone
    rw [openTypes_eq, directTypes, typeDeclarations, List.isEmpty_iff.1 hnone] at ho
    cases ho
  rw [findings, if_neg hheaders]
  exact List.mem_flatMap.2 ⟨o, ho, List.mem_map_of_mem hm⟩

/-- A record that shows one type shows no other one. -/
theorem Shows.unique {r : FunctionRecord} {type type' : Option Text} {call call' : Text}
    (h : Shows r type call) (h' : Shows r type' call') : type = type' :=
  Option.map_injective (fun _ _ => String.ofList_injective) (h.returnType.symm.trans h'.returnType)

/-- The record of a method shows the last word of the type that is written, and where no type is
written, the type parameters if the blanks in them are all spaces. So it shows what is written, and
no piece in angle brackets for the return type, exactly if type parameters without a type behind
them hold another blank than a space, and the type is one word. Each constructor or method that
begins with a line of the body of a type, where nothing above it reaches over this line, has such a
record. -/
theorem type_parameters_apart (t : Text) :
    (∀ f ∈ findings (.ofText t), IsReadable (behindModifiers f.declaration) ∧
      ∀ group type, Written group type (behindModifiers f.declaration) →
        Shows (f.record (.ofText t)) (takenType? group type) f.call ∧
        ((Shows (f.record (.ofText t)) type f.call ∧
            ∀ g, IsGroup g → (f.record (.ofText t)).returnType ≠ some (String.ofList g)) ↔
          KeptApart group type)) ∧
    ∀ o ∈ openTypes (.ofText t) none (.whole t), ∀ (c : Callable) before behind,
      c.StandsIn (.ofText t) (some o.scope) o.body before behind →
        ∃ f ∈ findings (.ofText t), f.scope = some o.scope ∧ f.stretch = o.body ∧
          f.method.header.start = before.length ∧
          (f.record (.ofText t)).name = some (String.ofList c.name) ∧
          Shows (f.record (.ofText t)) (takenType? c.group c.type) c.call ∧
          (Shows (f.record (.ofText t)) c.type c.call ↔ KeptApart c.group c.type) := by
  have hiff {r : FunctionRecord} {group type : Option Text} {call x : Text}
      (hw : Written group type x) (htaken : Shows r (takenType? group type) call) :
      Shows r type call ↔ KeptApart group type := by
    rw [← takenType?_eq_iff fun w hmem => (hw.type w hmem).ne_nil]
    exact ⟨fun h => htaken.unique h, fun h => h ▸ htaken⟩
  refine ⟨fun f hf => ?_, fun o ho c before behind hc => ?_⟩
  · obtain ⟨hreadable, hshows⟩ := declared_of_mem_findings hf
    refine ⟨hreadable, fun group type hw => ?_⟩
    rw [declaredType?_of_written hw hreadable] at hshows
    refine ⟨hshows, ⟨fun h => (hiff hw hshows).1 h.1, fun h => ⟨(hiff hw hshows).2 h, ?_⟩⟩⟩
    -- a type does not start with a bracket
    intro g hg hreturn
    have hsame := ((hiff hw hshows).2 h).returnType.symm.trans hreturn
    obtain ⟨w, rfl, hword⟩ := Option.map_eq_some_iff.1 hsame
    obtain rfl := String.ofList_injective hword
    obtain ⟨c, hc, -, hopen⟩ := (hw.type w rfl).head
    exact hopen (Option.some.inj (hc.symm.trans hg.opens))
  · obtain ⟨m, hm, hread⟩ := hc.exists_mem_methods
    have hf := mem_findings_of_mem_openTypes ho hm
    obtain ⟨hname, hshows⟩ := Callable.ReadBy.shows hf hread
    exact ⟨_, hf, rfl, rfl, hread.start, hname, hshows, hiff c.written hshows⟩

theorem declaredText?_genericConstructor :
    declaredText? "  <T> ".toList = some "<T>".toList := by decide +kernel

/-- A constructor with type parameters, up to the brace behind it. -/
def genericConstructor : Callable where
  declaration := "  <T> ".toList
  group := some "<T>".toList
  type := none
  name := ['A']
  gap := []
  parameters := "T t".toList
  clause := [' ']
  mark := '{'
  declaration_end _ hc := Option.some.inj hc ▸ rfl
  declaration_readable := by
    rw [behindModifiers, if_neg (by decide)]
    exact .inr (.inl ⟨"<T>".toList, [' '], rfl, by decide, List.all_eq_true.1 (by decide),
      by decide, List.all_eq_true.1 (by decide)⟩)
  written := by
    rw [behindModifiers, if_neg (by decide)]
    exact
      { text := ⟨[' '], [], List.all_eq_true.1 (by decide), List.forall_mem_nil _, by simp, rfl⟩
        group := fun g hg => Option.some.inj hg ▸ ⟨by decide, by decide, by decide⟩
        type := by simp }
  name_ne := by decide
  name_chars := List.all_eq_true.1 (by decide)
  gap_blank := List.forall_mem_nil _
  parameters_nested := nested_of_free (List.all_eq_true.1 (by decide))
  clause_read := ⟨[' '], [], List.all_eq_true.1 (by decide),
    ⟨[], [], .inr rfl, List.forall_mem_nil _, rfl⟩, rfl⟩
  mark_eq := .inl rfl
  name_free := by decide
  start_free := by decide
  type_free := by
    rw [declaredText?_genericConstructor]
    rintro t ⟨⟩
    decide

/-- A class with a field, this constructor and a method with type parameters. -/
def genericMembers : Text :=
  ("class A \x7b\n  int n = 0;\n  <T> A(T t) \x7b\x7d\n" ++
    "  public <T, U> Map<T, U> f(T t) \x7b\x7d\n\x7d\n").toList

/-- The constructor stands in the body of the class, behind the field. -/
theorem genericConstructor_standsIn :
    ∃ o ∈ openTypes (.ofText genericMembers) none (.whole genericMembers),
      genericConstructor.StandsIn (.ofText genericMembers) (some o.scope) o.body
        ((genericMembers.drop 9).take 14) ((genericMembers.drop 37).take 38) := by
  have hopen : (openTypes (.ofText genericMembers) none (.whole genericMembers)).map
      (fun o => (o.body.start, o.body.text, o.scope.name)) =
        [(9, (genericMembers.drop 9).take 66, ['A'])] := by decide +kernel
  have hlength := congrArg List.length hopen
  rw [List.length_map] at hlength
  obtain ⟨o, ho⟩ := List.length_eq_one_iff.1 hlength
  rw [ho] at hopen ⊢
  simp only [List.map_cons, List.map_nil, List.cons.injEq, Prod.mk.injEq, and_true] at hopen
  obtain ⟨hstart, htext, hname⟩ := hopen
  have hbody : o.body = ⟨9, (genericMembers.drop 9).take 66⟩ :=
    Stretch.eq_of_start_of_text hstart htext
  refine ⟨o, List.mem_singleton_self o, ?_⟩
  rw [hbody]
  exact
    { text := by decide +kernel
      line := .inr rfl
      above := by decide +kernel
      outside_comments := by decide +kernel
      outside_types := by decide +kernel
      constructor := fun _ => by
        rw [Option.any_some, hname]
        decide }

/-- The method is found with its modifier, its type parameters and its return type. -/
theorem exists_written_genericMembers : ∃ f ∈ findings (.ofText genericMembers),
    Written (some "<T, U>".toList) (some "Map<T, U>".toList) (behindModifiers f.declaration) := by
  have hread : (findings (.ofText genericMembers)).map Finding.declaration =
      ["<T> ".toList, "public <T, U> Map<T, U> ".toList] := by decide +kernel
  obtain ⟨f, hf, hdeclaration⟩ : ∃ f ∈ findings (.ofText genericMembers),
      f.declaration = "public <T, U> Map<T, U> ".toList :=
    List.mem_map.1 (hread ▸ List.mem_cons_of_mem _ List.mem_cons_self)
  have hbehind : behindModifiers f.declaration = "<T, U> Map<T, U> ".toList := by
    rw [hdeclaration, behindModifiers, if_pos (by decide), behindModifiers, if_neg (by decide)]
    decide
  refine ⟨f, hf, ⟨⟨[' '], [' '], List.all_eq_true.1 (by decide), List.all_eq_true.1 (by decide),
    by decide, hbehind⟩, ?_, ?_⟩⟩
  · rintro g ⟨⟩
    exact ⟨by decide, by decide, by decide⟩
  · rintro w ⟨⟩
    refine ⟨⟨'M', rfl, by decide⟩, ?_, by decide⟩
    rintro c ⟨⟩
    decide

/-- The type parameters of the constructor are taken for its return type, those of the method are
not. -/
theorem type_parameters_apart_genericMembers :
    (∃ f ∈ findings (.ofText genericMembers),
      (f.record (.ofText genericMembers)).name = some "A" ∧
      Shows (f.record (.ofText genericMembers)) (some "<T>".toList) "A(T t)".toList ∧
      ¬ Shows (f.record (.ofText genericMembers)) none "A(T t)".toList) ∧
    ∃ f ∈ findings (.ofText genericMembers),
      Shows (f.record (.ofText genericMembers)) (some "Map<T, U>".toList) f.call := by
  constructor
  · obtain ⟨o, ho, hstands⟩ := genericConstructor_standsIn
    obtain ⟨f, hf, -, -, -, hname, hshows, hiff⟩ :=
      (type_parameters_apart genericMembers).2 o ho _ _ _ hstands
    have htaken : takenType? genericConstructor.group genericConstructor.type =
        some "<T>".toList := by decide
    have hcall : genericConstructor.call = "A(T t)".toList := by decide +kernel
    rw [htaken, hcall] at hshows
    rw [hcall] at hiff
    refine ⟨f, hf, hname, hshows, fun hnone => ?_⟩
    exact absurd ((hiff.1 hnone).group rfl _ rfl) (by decide)
  · obtain ⟨f, hf, hwritten⟩ := exists_written_genericMembers
    exact ⟨f, hf, (((type_parameters_apart genericMembers).1 f hf).2 _ _ hwritten).1⟩

end Glossator.Java
