import Glossator.Proofs.Java.Forest
import Glossator.Proofs.Java.PartText
import Glossator.Proofs.Text.Join

/-!
# The annotations of a method

Annotations stand on lines of their own or right before a declaration. The first are cut into lines
before they are listed, the others are listed together. The arguments of an annotation may run over
several lines, and only there a line end can be: so a line end within an annotation cuts it between
its parentheses, and the piece before has more of them opened than closed.

* `Java.decorators_whole_iff`: the decorators are made of whole annotations exactly if no annotation
  on lines of its own runs over a line end.
-/

set_option autoImplicit false

namespace Glossator.Java

open Pattern Text

variable {t u v : Text}

/-! ### Parentheses -/

/-- As many parentheses are closed as are opened, and none before it is opened. -/
structure ParensMatch (t : Text) : Prop where
  count_eq : t.count '(' = t.count ')'
  count_le : ∀ w, w <+: t → w.count ')' ≤ w.count '('

namespace ParensMatch

theorem of_forall (h : ∀ c ∈ t, c ≠ '(' ∧ c ≠ ')') : ParensMatch t := by
  have hnone {w : Text} (hw : w <+: t) : w.count '(' = 0 ∧ w.count ')' = 0 :=
    ⟨List.count_eq_zero_of_not_mem fun hc => (h _ (hw.mem hc)).1 rfl,
      List.count_eq_zero_of_not_mem fun hc => (h _ (hw.mem hc)).2 rfl⟩
  refine ⟨?_, fun w hw => ?_⟩
  · rw [(hnone (List.prefix_refl t)).1, (hnone (List.prefix_refl t)).2]
  · rw [(hnone hw).1, (hnone hw).2]

theorem append (ht : ParensMatch t) (hu : ParensMatch u) : ParensMatch (t ++ u) := by
  refine ⟨?_, fun w hw => ?_⟩
  · rw [List.count_append, List.count_append, ht.count_eq, hu.count_eq]
  · obtain ⟨rest, hrest⟩ := hw
    rcases List.append_eq_append_iff.1 hrest with ⟨more, rfl, -⟩ | ⟨front, rfl, hfront⟩
    · exact ht.count_le w (List.prefix_append w more)
    · have := ht.count_eq
      have := hu.count_le front ⟨rest, hfront.symm⟩
      rw [List.count_append, List.count_append]
      omega

/-- Within parentheses, a text stays balanced. -/
theorem parenthesized (ht : ParensMatch t) : ParensMatch ('(' :: (t ++ [')'])) := by
  have heq := ht.count_eq
  have hcount : ('(' :: (t ++ [')'])).count '(' = t.count '(' + 1 ∧
      ('(' :: (t ++ [')'])).count ')' = t.count ')' + 1 := by simp
  refine ⟨by omega, fun w hw => ?_⟩
  cases w with
  | nil => simp
  | cons c w =>
    obtain ⟨rfl, hinner⟩ := List.cons_prefix_cons.1 hw
    rcases List.prefix_concat_iff.1 hinner with rfl | hinner
    · omega
    · have := ht.count_le w hinner
      rw [List.count_cons_self, List.count_cons_of_ne (by decide)]
      omega

theorem flatMap {β : Type} {xs : List β} {write : β → Text} (h : ∀ x ∈ xs, ParensMatch (write x)) :
    ParensMatch (xs.flatMap write) := by
  induction xs with
  | nil => exact of_forall (by simp)
  | cons x xs ih =>
    obtain ⟨hx, hxs⟩ := List.forall_mem_cons.1 h
    exact hx.append (ih hxs)

end ParensMatch

/-! ### Annotations -/

/-- An annotation: its name behind an at sign, and perhaps arguments in parentheses. -/
structure Annotation where
  name : Text
  arguments : Option Text
  named : name ≠ []
  isName : ∀ c ∈ name, isWord c = true ∨ c = '.'
  matched : ∀ inner ∈ arguments, ParensMatch inner

namespace Annotation

/-- The arguments with their parentheses. -/
def argumentsText (a : Annotation) : Text :=
  match a.arguments with
  | none => []
  | some inner => '(' :: (inner ++ [')'])

/-- The annotation as it is written. -/
def text (a : Annotation) : Text := '@' :: (a.name ++ a.argumentsText)

variable (a : Annotation)

theorem parensMatch_name : ParensMatch ('@' :: a.name) := by
  refine .of_forall fun c hc => ?_
  rcases List.mem_cons.1 hc with rfl | hc
  · decide
  · rcases a.isName c hc with hword | rfl
    · constructor <;> (rintro rfl; exact absurd hword (by decide))
    · decide

theorem parensMatch_text : ParensMatch a.text := by
  refine a.parensMatch_name.append ?_
  rw [argumentsText]
  split
  · exact .of_forall (by simp)
  · next inner hinner => exact (a.matched inner hinner).parenthesized

theorem isBlank_getLast?_text : ∀ c ∈ a.text.getLast?, isBlank c = false := by
  intro c hc
  cases harguments : a.arguments with
  | none =>
    rw [text, argumentsText, harguments, List.append_nil,
      List.getLast?_cons_of_ne_nil a.named] at hc
    rcases a.isName c (List.mem_of_mem_getLast? hc) with hword | rfl
    · exact isBlank_eq_false_of_isWord hword
    · decide
  | some inner =>
    have hlist : a.text = ('@' :: a.name ++ '(' :: inner) ++ [')'] := by
      simp [text, argumentsText, harguments]
    rw [hlist, List.getLast?_concat] at hc
    rw [← Option.some.inj hc]
    decide

/-- A line end within an annotation cuts it within its arguments. -/
theorem exists_open_piece (h : '\n' ∈ a.text) : ∃ piece rest, a.text = piece ++ '\n' :: rest ∧
    '\n' ∉ piece ∧ piece.count ')' < piece.count '(' := by
  have hname : '\n' ∉ '@' :: a.name := by
    intro hmem
    rcases a.isName '\n' (by simpa using hmem) with hword | hdot
    · exact absurd hword (by decide)
    · exact absurd hdot (by decide)
  have harguments : '\n' ∈ a.argumentsText :=
    (List.mem_append.1 (h : '\n' ∈ ('@' :: a.name) ++ a.argumentsText)).resolve_left hname
  cases hinner : a.arguments with
  | none => simp [argumentsText, hinner] at harguments
  | some inner =>
    have hmem : '\n' ∈ inner := by simpa [argumentsText, hinner] using harguments
    obtain ⟨front, rest, hsplit, hfront⟩ := List.eq_append_cons_of_mem hmem
    refine ⟨'@' :: a.name ++ '(' :: front, rest ++ [')'], ?_, ?_, ?_⟩
    · simp [text, argumentsText, hinner, hsplit]
    · simpa [hfront] using hname
    · have hle := (a.matched inner hinner).count_le front ⟨_, hsplit.symm⟩
      have heq := a.parensMatch_name.count_eq
      rw [List.count_append, List.count_append, List.count_cons_self,
        List.count_cons_of_ne (by decide) (l := front)]
      omega

end Annotation

/-- Text whose parentheses nest has as many opened as closed. -/
theorem parensMatch_of_nested {depth : Nat} (h : (nested depth).InLanguage u) : ParensMatch u := by
  have hplain {w : Text} (hw : (nested 0).InLanguage w) : ParensMatch w := by
    rw [nested] at hw
    exact .of_forall fun c hc => by simpa using hw c hc
  induction depth generalizing u with
  | zero => exact hplain h
  | succ depth ih =>
    rw [nested] at h
    obtain ⟨front, _, hfront, ⟨pieces, hpieces, rfl⟩, rfl⟩ := h
    refine (hplain hfront).append ?_
    rw [← List.flatMap_id]
    refine .flatMap fun piece hpiece => ?_
    obtain ⟨_, behind, ⟨_, _, ⟨_, inner, rfl, hinner, rfl⟩, rfl, rfl⟩, hbehind, rfl⟩ :=
      hpieces piece hpiece
    exact (ih hinner).parenthesized.append (hplain hbehind)

/-- The pattern of annotations reads annotations. -/
theorem exists_annotation_of_inLanguage (h : annotationMark.InLanguage u) :
    ∃ a : Annotation, u = a.text := by
  obtain ⟨_, arguments, ⟨_, name, rfl, hname, rfl⟩, harguments, rfl⟩ := h
  obtain ⟨hne, hchars⟩ := inLanguage_someOf.1 hname
  have hisName : ∀ c ∈ name, isWord c = true ∨ c = '.' := fun c hc => by simpa using hchars c hc
  rcases harguments with ⟨_, _, ⟨_, inner, rfl, hinner, rfl⟩, rfl, rfl⟩ | rfl
  · exact ⟨⟨name, some inner, hne, hisName, fun _ h => by
      rw [← Option.some.inj h]; exact parensMatch_of_nested hinner⟩, rfl⟩
  · exact ⟨⟨name, none, hne, hisName, fun _ h => by cases h⟩, rfl⟩

/-! ### Annotations behind each other -/

/-- An annotation and the blanks behind it. -/
structure Placed where
  annotation : Annotation
  behind : Text
  blank : ∀ c ∈ behind, isBlank c = true

/-- Annotations as they stand behind each other. -/
def placedText (ps : List Placed) : Text := ps.flatMap fun p => p.annotation.text ++ p.behind

/-- Annotations as they stand behind each other, up to the last one. -/
def entryText : List Placed → Text
  | [] => []
  | [p] => p.annotation.text
  | p :: q :: ps => p.annotation.text ++ p.behind ++ entryText (q :: ps)

/-- An entry that is made of whole annotations. -/
structure IsWhole (entry : Text) : Prop where
  head : entry.head? = some '@'
  parens : ParensMatch entry

variable {p : Placed} {ps : List Placed}

theorem parensMatch_of_blank (h : ∀ c ∈ t, isBlank c = true) : ParensMatch t :=
  .of_forall fun c hc => by constructor <;> (rintro rfl; exact absurd (h _ hc) (by decide))

theorem isWhole_entryText (hne : ps ≠ []) : IsWhole (entryText ps) := by
  induction ps with
  | nil => exact absurd rfl hne
  | cons p ps ih =>
    cases ps with
    | nil => exact ⟨rfl, p.annotation.parensMatch_text⟩
    | cons q ps =>
      have hplaced := p.annotation.parensMatch_text.append (parensMatch_of_blank p.blank)
      exact ⟨rfl, hplaced.append (ih (List.cons_ne_nil q ps)).parens⟩

theorem isBlank_getLast?_entryText : ∀ c ∈ (entryText ps).getLast?, isBlank c = false := by
  induction ps with
  | nil => simp [entryText]
  | cons p ps ih =>
    cases ps with
    | nil => exact p.annotation.isBlank_getLast?_text
    | cons q ps =>
      intro c hc
      have hne : entryText (q :: ps) ≠ [] := by
        intro hnil
        have := (isWhole_entryText (List.cons_ne_nil q ps)).head
        simp [hnil] at this
      rw [entryText, List.getLast?_append_of_ne_nil _ hne] at hc
      exact ih c hc

theorem exists_placedText_eq (ps : List Placed) :
    ∃ gap, (∀ c ∈ gap, isBlank c = true) ∧ placedText ps = entryText ps ++ gap := by
  induction ps with
  | nil => exact ⟨[], by simp, rfl⟩
  | cons p ps ih =>
    cases ps with
    | nil => exact ⟨p.behind, p.blank, by simp [placedText, entryText]⟩
    | cons q ps =>
      obtain ⟨gap, hgap, htext⟩ := ih
      refine ⟨gap, hgap, ?_⟩
      rw [placedText, List.flatMap_cons, ← placedText, htext, entryText]
      simp

/-- Trimmed, annotations behind each other end with the last one. -/
theorem trim_placedText {before behind : Text} (hbefore : ∀ c ∈ before, isBlank c = true)
    (hbehind : ∀ c ∈ behind, isBlank c = true) (ps : List Placed) :
    trim (before ++ (placedText ps ++ behind)) = entryText ps := by
  obtain ⟨gap, hgap, htext⟩ := exists_placedText_eq ps
  rw [htext, List.append_assoc]
  refine trim_eq hbefore (List.forall_mem_append.2 ⟨hgap, hbehind⟩) ?_ isBlank_getLast?_entryText
  cases ps with
  | nil => simp [entryText]
  | cons p ps =>
    rw [(isWhole_entryText (List.cons_ne_nil p ps)).head]
    intro c hc
    rw [← Option.some.inj hc]
    decide

/-- A line end within one of several annotations cuts it between its parentheses. -/
theorem exists_open_piece (hgap : ∀ p ∈ ps, '\n' ∉ p.behind) (h : '\n' ∈ placedText ps) :
    ∃ piece rest, placedText ps = piece ++ '\n' :: rest ∧ '\n' ∉ piece ∧
      piece.count ')' < piece.count '(' := by
  induction ps with
  | nil => cases h
  | cons p ps ih =>
    obtain ⟨hp, hgap⟩ := List.forall_mem_cons.1 hgap
    have hlist : placedText (p :: ps) = p.annotation.text ++ (p.behind ++ placedText ps) := by
      simp [placedText]
    by_cases hmem : '\n' ∈ p.annotation.text
    · obtain ⟨piece, rest, htext, hpiece, hlt⟩ := p.annotation.exists_open_piece hmem
      exact ⟨piece, rest ++ (p.behind ++ placedText ps), by rw [hlist, htext]; simp, hpiece, hlt⟩
    · rw [hlist, List.mem_append, List.mem_append] at h
      obtain ⟨piece, rest, htext, hpiece, hlt⟩ := ih hgap ((h.resolve_left hmem).resolve_left hp)
      refine ⟨p.annotation.text ++ (p.behind ++ piece), rest, by rw [hlist, htext]; simp,
        by simp [hmem, hp, hpiece], ?_⟩
      have hfront := (p.annotation.parensMatch_text.append (parensMatch_of_blank p.blank)).count_eq
      simp only [List.count_append] at hfront ⊢
      omega

/-! ### Rows of annotations -/

/-- A line of annotations; the arguments of one of them may run over several lines. -/
structure Row where
  before : Text
  placed : List Placed
  behind : Text
  inhabited : placed ≠ []
  blank : ∀ c ∈ before ++ behind, isBlank c = true
  single : '\n' ∉ before ++ behind
  gaps : ∀ p ∈ placed, '\n' ∉ p.behind

namespace Row

/-- The line without the line end. -/
def body (r : Row) : Text := r.before ++ (placedText r.placed ++ r.behind)

def text (r : Row) : Text := r.body ++ ['\n']

/-- No annotation of the line runs over a line end. -/
def OnOneLine (r : Row) : Prop := ∀ p ∈ r.placed, '\n' ∉ p.annotation.text

end Row

/-- The pattern of one line of annotations. -/
def annotationRow : HeaderPattern :=
  Pattern.lineStart ++ indentation ++ plus (annotationMark ++ indentation) ++
    maybe (Pattern.text "\r") ++ Pattern.text "\n"

theorem indentation_spec (h : indentation.InLanguage u) :
    (∀ c ∈ u, isBlank c = true) ∧ '\n' ∉ u := by
  have hcases : ∀ c ∈ u, c = ' ' ∨ c = '\t' := fun c hc => by simpa using h c hc
  refine ⟨fun c hc => ?_, fun hmem => ?_⟩
  · rcases hcases c hc with rfl | rfl <;> rfl
  · rcases hcases '\n' hmem with h | h <;> exact absurd h (by decide)

/-- The pattern of annotations and blanks reads placed annotations. -/
theorem exists_placed {gap : HeaderPattern} {P : Text → Prop}
    (hgap : ∀ v, gap.InLanguage v → (∀ c ∈ v, isBlank c = true) ∧ P v)
    (h : (annotationMark ++ gap).InLanguage u) :
    ∃ p : Placed, P p.behind ∧ u = p.annotation.text ++ p.behind := by
  obtain ⟨_, behind, hmark, hbehind, rfl⟩ := h
  obtain ⟨a, rfl⟩ := exists_annotation_of_inLanguage hmark
  exact ⟨⟨a, behind, (hgap behind hbehind).1⟩, (hgap behind hbehind).2, rfl⟩

theorem exists_row_of_inLanguage (h : annotationRow.InLanguage u) : ∃ r : Row, u = r.text := by
  obtain ⟨_, _, ⟨_, ending, ⟨before, _, ⟨_, _, rfl, hbefore, rfl⟩, ⟨_, _, hfirst, hmore, rfl⟩, rfl⟩,
    hending, rfl⟩, rfl, rfl⟩ := h
  obtain ⟨p, hp, rfl⟩ := exists_placed (fun _ => indentation_spec) hfirst
  obtain ⟨ps, hps, rfl⟩ := exists_flatMap_of_star
    (fun _ => exists_placed (fun _ => indentation_spec)) hmore
  have hcases : ending = ['\r'] ∨ ending = [] := hending
  have hspec : (∀ c ∈ ending, isBlank c = true) ∧ '\n' ∉ ending := by
    rcases hcases with rfl | rfl
    · exact ⟨List.forall_mem_singleton.2 rfl, by simp⟩
    · simp
  refine ⟨⟨before, p :: ps, ending, List.cons_ne_nil p ps,
    List.forall_mem_append.2 ⟨(indentation_spec hbefore).1, hspec.1⟩, ?_,
    List.forall_mem_cons.2 ⟨hp, hps⟩⟩, ?_⟩
  · simp [(indentation_spec hbefore).2, hspec.2]
  · simp [Row.text, Row.body, placedText]

/-! ### Decorators -/

/-- The trimmed lines of a text that are not blank. -/
def trimmedLines (t : Text) : List Text :=
  ((splitAt (· = '\n') t).map trim).filter (! ·.isEmpty)

/-- Lines before and behind a line end are trimmed apart. -/
theorem trimmedLines_append_cons (t u : Text) :
    trimmedLines (t ++ '\n' :: u) = trimmedLines t ++ trimmedLines u := by
  rw [trimmedLines, splitAt_append_cons (by rfl), List.map_append, List.filter_append]
  rfl

theorem trimmedLines_eq_singleton (h : '\n' ∉ t) (hne : trim t ≠ []) :
    trimmedLines t = [trim t] := by
  rw [trimmedLines, splitAt_newline_eq_singleton h, List.map_singleton, List.filter_cons_of_pos,
    List.filter_nil]
  simpa using hne

theorem decorators_eq (t : Text) (m : Match HeaderPart) :
    decorators t m = trimmedLines (m.text t .annotations) ++
      [trim (m.text t .inlineAnnotations)].filter (! ·.isEmpty) := by
  obtain ⟨more, hmore, hlines⟩ := exists_map_trim_splitAt (m.text t .annotations)
  have hnone : more.filter (! ·.isEmpty) = [] := by
    rw [List.filter_eq_nil_iff]
    intro line hline
    simp [hmore line hline]
  rw [decorators, List.filter_append, trimmedLines, hlines, List.filter_append, hnone,
    List.append_nil]

theorem trimmedLines_rows (rows : List Row) :
    trimmedLines (rows.flatMap Row.text) = rows.flatMap fun r => trimmedLines r.body := by
  induction rows with
  | nil => rfl
  | cons r rows ih =>
    rw [List.flatMap_cons, List.flatMap_cons, Row.text, List.append_assoc, List.singleton_append,
      trimmedLines_append_cons, ih]

namespace Row

variable (r : Row)

theorem entryText_ne_nil : entryText r.placed ≠ [] := by
  intro hnil
  have hhead := (isWhole_entryText r.inhabited).head
  simp [hnil] at hhead

theorem trim_body : trim r.body = entryText r.placed :=
  trim_placedText (List.forall_mem_append.1 r.blank).1 (List.forall_mem_append.1 r.blank).2 _

theorem newline_notMem_iff : '\n' ∉ placedText r.placed ↔ r.OnOneLine := by
  rw [placedText, List.mem_flatMap, OnOneLine]
  constructor
  · exact fun h p hp hmem => h ⟨p, hp, List.mem_append_left _ hmem⟩
  · rintro h ⟨p, hp, hmem⟩
    exact (List.mem_append.1 hmem).elim (h p hp) (r.gaps p hp)

/-- Annotations on one line are listed together. -/
theorem trimmedLines_body (h : r.OnOneLine) : trimmedLines r.body = [entryText r.placed] := by
  have hplain := r.newline_notMem_iff.2 h
  have hsingle := r.single
  have hbody : '\n' ∉ r.body := by
    simp only [body, List.mem_append, not_or] at hsingle ⊢
    exact ⟨hsingle.1, hplain, hsingle.2⟩
  rw [trimmedLines_eq_singleton hbody (by rw [r.trim_body]; exact r.entryText_ne_nil), r.trim_body]

/-- An annotation that runs over a line end is cut between its parentheses. -/
theorem exists_cut (h : ¬ r.OnOneLine) : ∃ entry ∈ trimmedLines r.body, ¬ ParensMatch entry := by
  obtain ⟨piece, rest, htext, hpiece, hlt⟩ :=
    exists_open_piece r.gaps (not_not.1 (mt r.newline_notMem_iff.1 h))
  have hbody : r.body = (r.before ++ piece) ++ '\n' :: (rest ++ r.behind) := by
    simp [body, htext]
  have hcount (c : Char) (hc : isBlank c = false) :
      (trim (r.before ++ piece)).count c = piece.count c := by
    rw [trim_blanks_append (List.forall_mem_append.1 r.blank).1, count_trim hc]
  have hcut : (trim (r.before ++ piece)).count ')' < (trim (r.before ++ piece)).count '(' := by
    rw [hcount _ (by decide), hcount _ (by decide)]
    exact hlt
  have hne : trim (r.before ++ piece) ≠ [] := by
    intro hnil
    simp [hnil] at hcut
  have hsingle : '\n' ∉ r.before ++ piece := by
    have := r.single
    simp only [List.mem_append, not_or] at this ⊢
    exact ⟨this.1, hpiece⟩
  refine ⟨trim (r.before ++ piece), ?_, fun hmatch => ?_⟩
  · rw [hbody, trimmedLines_append_cons, trimmedLines_eq_singleton hsingle hne]
    exact List.mem_append_left _ List.mem_cons_self
  · rw [hmatch.count_eq] at hcut
    omega

end Row

theorem bodies_annotations : methodHeader.bodies .annotations = [Pattern.star annotationRow] ∧
    methodHeader.bodies .inlineAnnotations = [Pattern.star (annotationMark ++ someBlanks)] := by
  constructor <;>
  simp [methodHeader, methodComments, methodAnnotations, methodDeclaration, methodModifiers,
    modifierWords, annotationMark, annotationRow, nested, docComment, lineComment, named, maybe,
    maybeLazy, plus, someOf, someBlanks, blanks, indentation, word, Pattern.text, anyText, bodies]

/-- The annotations that a method header reports. -/
theorem exists_rows_of_find? {offset : Nat} {m : Match HeaderPart}
    (hm : (Finder.ofPattern methodHeader t).find? offset = some m) :
    ∃ rows : List Row, ∃ inline : List Placed,
      m.text t .annotations = rows.flatMap Row.text ∧
      m.text t .inlineAnnotations = placedText inline := by
  have hpart {label : HeaderPart} {body : HeaderPattern}
      (hbody : methodHeader.bodies label = [body]) (hnone : body.InLanguage []) :
      body.InLanguage (m.text t label) := by
    rw [Match.text]
    cases hu : m.text? t label with
    | none => exact hnone
    | some u =>
      obtain ⟨body', hbody', hu⟩ := inLanguage_of_find? hm hu
      rw [hbody, List.mem_singleton] at hbody'
      exact hbody' ▸ hu
  obtain ⟨hrows, hinline⟩ := bodies_annotations
  obtain ⟨rows, -, hrows⟩ := exists_flatMap_of_star (P := fun _ => True)
    (fun v hv => (exists_row_of_inLanguage hv).imp fun _ h => ⟨trivial, h⟩)
    (hpart hrows ⟨[], by simp, rfl⟩)
  obtain ⟨inline, -, hinline⟩ := exists_flatMap_of_star
    (fun v hv => exists_placed (P := fun _ => True)
      (fun w hw => ⟨(inLanguage_someOf.1 hw).2, trivial⟩) hv)
    (hpart hinline ⟨[], by simp, rfl⟩)
  exact ⟨rows, inline, hrows, hinline⟩

/-- What is listed of the annotations right before a declaration. -/
theorem filter_inline (inline : List Placed) :
    [trim (placedText inline)].filter (! ·.isEmpty) =
      if inline = [] then [] else [entryText inline] := by
  have hnone : ∀ c ∈ ([] : Text), isBlank c = true := by simp
  have htrim : trim (placedText inline) = entryText inline := by
    simpa using trim_placedText hnone hnone inline
  rw [htrim]
  split
  · next hnil => rw [hnil]; rfl
  · next hne =>
    have hhead := (isWhole_entryText hne).head
    rw [List.filter_cons_of_pos, List.filter_nil]
    cases hentry : entryText inline with
    | nil => simp [hentry] at hhead
    | cons c entry => rfl

/-- The entries of lines of annotations, each on one line. -/
theorem flatMap_trimmedLines {rows : List Row} (h : ∀ r ∈ rows, r.OnOneLine) :
    (rows.flatMap fun r => trimmedLines r.body) = rows.map fun r => entryText r.placed := by
  rw [List.flatMap_congr fun r hr => r.trimmedLines_body (h r hr), List.map_eq_flatMap]

/-- The entries of lines of annotations are whole exactly if each line is one line of the text. -/
theorem forall_isWhole_iff (rows : List Row) :
    (∀ entry ∈ rows.flatMap fun r => trimmedLines r.body, IsWhole entry) ↔
      ∀ r ∈ rows, r.OnOneLine := by
  constructor
  · intro hall r hr
    by_contra hcut
    obtain ⟨entry, hentry, hopen⟩ := r.exists_cut hcut
    exact hopen (hall entry (List.mem_flatMap.2 ⟨r, hr, hentry⟩)).parens
  · intro hlines entry hentry
    rw [flatMap_trimmedLines hlines, List.mem_map] at hentry
    obtain ⟨r, -, rfl⟩ := hentry
    exact isWhole_entryText r.inhabited

/-- A header found by a search reports lines of annotations, and annotations right before the
declaration. However they are taken apart, the decorators of the record are made of whole
annotations exactly if no annotation on lines of its own runs over a line end. Then they are the
annotations of each such line, and those right before the declaration, in the order of the text. -/
theorem decorators_whole_iff (t : Text) : ∀ f ∈ findings (.ofText t),
    (∃ rows : List Row, ∃ inline : List Placed,
      f.method.header.text f.stretch.text .annotations = rows.flatMap Row.text ∧
      f.method.header.text f.stretch.text .inlineAnnotations = placedText inline) ∧
    ∀ (rows : List Row) (inline : List Placed),
      f.method.header.text f.stretch.text .annotations = rows.flatMap Row.text →
      f.method.header.text f.stretch.text .inlineAnnotations = placedText inline →
      ((∀ entry ∈ (f.record (.ofText t)).decorators, IsWhole entry.toList) ↔
        ∀ r ∈ rows, r.OnOneLine) ∧
      ((∀ r ∈ rows, r.OnOneLine) → (f.record (.ofText t)).decorators.map String.toList =
        rows.map (fun r => entryText r.placed) ++
          if inline = [] then [] else [entryText inline]) := by
  intro f hf
  obtain ⟨_, -, -, hmethod⟩ := exists_reached_of_mem_findings hf
  obtain ⟨_, hfound⟩ := exists_found_of_mem_methods hmethod
  obtain ⟨offset, hfind⟩ := hfound.find
  refine ⟨exists_rows_of_find? hfind, fun rows inline hrows hinline => ?_⟩
  have hentries : (f.record (.ofText t)).decorators.map String.toList =
      (rows.flatMap fun r => trimmedLines r.body) ++
        if inline = [] then [] else [entryText inline] := by
    have hrecord : (f.record (.ofText t)).decorators =
        (decorators f.stretch.text f.method.header).map String.ofList := rfl
    have hsame : String.toList ∘ String.ofList = id := funext fun l => String.toList_ofList
    rw [hrecord, List.map_map, hsame, List.map_id, decorators_eq, hrows, hinline,
      trimmedLines_rows, filter_inline]
  have hlast : ∀ entry ∈ if inline = [] then [] else [entryText inline], IsWhole entry := by
    intro entry hentry
    split at hentry
    · cases hentry
    · next hne => exact List.mem_singleton.1 hentry ▸ isWhole_entryText hne
  refine ⟨?_, fun hlines => by rw [hentries, flatMap_trimmedLines hlines]⟩
  rw [← List.forall_mem_map (f := String.toList) (P := IsWhole), hentries, List.forall_mem_append,
    forall_isWhole_iff, and_iff_left hlast]

/-- A class with two methods: an annotation of the first one runs over a line end. -/
def annotatedMethods : Text := ("class A \x7b\n  @Run(\n    times = 2)\n  void m() \x7b\x7d\n" ++
  "  @Test @Fast\n  @Run(times = 2) void n() \x7b\x7d\n\x7d\n").toList

theorem decorators_whole_iff_annotatedMethods : ∃ f g,
    findings (.ofText annotatedMethods) = [f, g] ∧
    (f.record (.ofText annotatedMethods)).decorators = ["@Run(", "times = 2)"] ∧
    (g.record (.ofText annotatedMethods)).decorators = ["@Test @Fast", "@Run(times = 2)"] ∧
    (∃ rows : List Row, f.method.header.text f.stretch.text .annotations = rows.flatMap Row.text ∧
      ¬ ∀ r ∈ rows, r.OnOneLine) ∧
    ∃ rows : List Row, g.method.header.text g.stretch.text .annotations = rows.flatMap Row.text ∧
      ∀ r ∈ rows, r.OnOneLine := by
  have hread : (findings (.ofText annotatedMethods)).map (fun f =>
      (f.record (.ofText annotatedMethods)).decorators) =
      [["@Run(", "times = 2)"], ["@Test @Fast", "@Run(times = 2)"]] := by decide +kernel
  have hlength := congrArg List.length hread
  rw [List.length_map] at hlength
  obtain ⟨f, g, hfound⟩ := List.length_eq_two.1 hlength
  rw [hfound] at hread
  simp only [List.map_cons, List.map_nil, List.cons.injEq, and_true] at hread
  obtain ⟨hf, hg⟩ := hread
  obtain ⟨⟨rows, inline, hrows, hinline⟩, hall⟩ :=
    decorators_whole_iff annotatedMethods f (by simp [hfound])
  obtain ⟨⟨rows', inline', hrows', hinline'⟩, hall'⟩ :=
    decorators_whole_iff annotatedMethods g (by simp [hfound])
  refine ⟨f, g, hfound, hf, hg, ⟨rows, hrows, fun hlines => ?_⟩, rows', hrows', ?_⟩
  · have hwhole := (hall rows inline hrows hinline).1.2 hlines "@Run(" (by simp [hf])
    have hcount := hwhole.parens.count_eq
    revert hcount
    decide
  · refine (hall' rows' inline' hrows' hinline').1.1 fun entry hentry => ?_
    have hplain {w : Text} (hw : ∀ c ∈ w, c ≠ '(' ∧ c ≠ ')') : ParensMatch w := .of_forall hw
    have hsplit : "@Run(times = 2)".toList =
        "@Run".toList ++ '(' :: ("times = 2".toList ++ [')']) := by decide
    rw [hg, List.mem_cons, List.mem_singleton] at hentry
    rcases hentry with rfl | rfl
    · exact ⟨by decide, hplain (by simp)⟩
    · refine ⟨by decide, ?_⟩
      rw [hsplit]
      exact (hplain (by simp)).append (hplain (by simp)).parenthesized

end Glossator.Java
