import Glossator.Proofs.Java.Brackets
import Glossator.Proofs.Java.Forest

/-!
# Parameters and the signature they stand in

Parameters are split at the commas before which as many brackets close as open. Nothing but these
commas and the blanks is lost, and each parameter but the last leaves the count of open brackets at
zero. So the parameters joined with commas are split again where they were joined, whatever their
brackets are, and a signature still tells its parameters.

* `Java.Splits`, `Java.splits_split`: pieces that commas part from each other.
* `Java.splitParameters_join`: such pieces are split where they were joined.
* `Java.splitParameters_stable`: splitting loses nothing and can be repeated, and so the parameters
  of every record are those in its signature.
-/

set_option autoImplicit false

namespace Glossator.Java

open Brackets Pattern

variable {t w : Text} {ps : List Text} {depth : Int}

/-! ### Commas outside brackets -/

/-- How many more brackets a text opens than it closes. -/
def bracketCount (t : Text) : Int :=
  (t.count '<' + t.count '(' : Int) - (t.count '>' + t.count ')')

/-- What follows `before` in a text, without the commas up to which as many brackets close as
open. -/
def withoutCommas (before : Text) : Text → Text
  | [] => []
  | c :: t =>
    if c = ',' ∧ bracketCount before = 0 then withoutCommas (before ++ [c]) t
    else c :: withoutCommas (before ++ [c]) t

theorem separates_parameterBrackets {c : Char} :
    parameterBrackets.separates depth c = true ↔ c = ',' ∧ depth = 0 := by
  simp [parameterBrackets]

theorem step_parameterBrackets_comma : parameterBrackets.step depth ',' = depth :=
  step_eq_self (by decide) (by decide)

theorem bracketCount_concat (t : Text) (c : Char) :
    bracketCount (t ++ [c]) = parameterBrackets.step (bracketCount t) c := by
  simp only [bracketCount, List.count_append, List.count_singleton, beq_iff_eq, Brackets.step,
    parameterBrackets, Bool.or_eq_true, decide_eq_true_eq]
  by_cases h1 : c = '<'
  · subst h1
    simp
    omega
  by_cases h2 : c = '('
  · subst h2
    simp
    omega
  by_cases h3 : c = '>'
  · subst h3
    simp
    omega
  by_cases h4 : c = ')'
  · subst h4
    simp
    omega
  simp [h1, h2, h3, h4]

/-- The pieces of a text are the text without the commas that part them. -/
theorem flatten_split_parameterBrackets (before t : Text) :
    (parameterBrackets.split (bracketCount before) t).flatten = withoutCommas before t := by
  induction t generalizing before with
  | nil => rfl
  | cons c t ih =>
    rw [withoutCommas]
    split
    · next hc =>
      have hcount : bracketCount (before ++ [c]) = bracketCount before := by
        rw [bracketCount_concat, hc.1, step_parameterBrackets_comma]
      rw [split_cons_of_separates (separates_parameterBrackets.2 hc), ← ih, hcount]
      rfl
    · next hc =>
      have hnot := Bool.eq_false_iff.2 (mt separates_parameterBrackets.1 hc)
      obtain ⟨piece, pieces, hpieces, hsplit⟩ := exists_split_cons hnot t
      rw [hsplit, ← ih, bracketCount_concat, hpieces]
      rfl

theorem blanksPlain_parameterBrackets : parameterBrackets.BlanksPlain := by
  intro depth c hc
  have hne {d : Char} (hd : isBlank d = false) : c ≠ d := by
    rintro rfl
    exact Bool.false_ne_true (hd.symm.trans hc)
  simp [parameterBrackets, hne (d := '<') (by decide), hne (d := '(') (by decide),
    hne (d := '>') (by decide), hne (d := ')') (by decide), hne (d := ',') (by decide)]

/-! ### Splitting and joining -/

/-- Pieces that commas part from each other: no comma parts one of them, and each of them but the
last leaves the count of open brackets at zero. -/
structure Splits (ps : List Text) : Prop where
  whole : ∀ w ∈ ps, parameterBrackets.Whole 0 w
  closed : ps.Pairwise fun w _ => parameterBrackets.run 0 w = 0

theorem splits_split (t : Text) : Splits (parameterBrackets.split 0 t) := by
  induction hn : t.length using Nat.strong_induction_on generalizing t with
  | _ n ih =>
    rcases parameterBrackets.split_cases 0 t with hone | ⟨w, c, rest, rfl, hw, hc, hmore⟩
    · rw [hone]
      exact ⟨List.forall_mem_singleton.2 hone, List.pairwise_singleton _ _⟩
    · have hclosed := (separates_parameterBrackets.1 hc).2
      rw [hmore, hclosed]
      obtain ⟨hwhole, hpairs⟩ := ih rest.length (by rw [← hn]; simp; omega) rest rfl
      exact ⟨List.forall_mem_cons.2 ⟨hw, hwhole⟩, List.pairwise_cons.2 ⟨fun _ _ => hclosed, hpairs⟩⟩

namespace Splits

theorem filter (h : Splits ps) (p : Text → Bool) : Splits (ps.filter p) where
  whole w hw := h.whole w (List.mem_of_mem_filter hw)
  closed := h.closed.filter p

/-- The blanks in the pieces do not matter. -/
theorem map_spaced (h : Splits ps) : Splits (ps.map Text.spaced) where
  whole := by
    intro w hw
    obtain ⟨v, hv, rfl⟩ := List.mem_map.1 hw
    exact (whole_spaced blanksPlain_parameterBrackets).2 (h.whole v hv)
  closed := by
    rw [List.pairwise_map]
    exact h.closed.imp fun hclosed => (run_spaced blanksPlain_parameterBrackets 0 _).trans hclosed

/-- Pieces that were joined are split off again, with the spaces behind the commas. -/
theorem split_join (h : Splits (w :: ps)) :
    parameterBrackets.split 0 (Text.join [',', ' '] (w :: ps)) = w :: ps.map (' ' :: ·) := by
  induction ps generalizing w with
  | nil =>
    rw [Text.join_cons, List.flatMap_nil, List.append_nil]
    exact h.whole w List.mem_cons_self
  | cons v ps ih =>
    have hjoin : Text.join [',', ' '] (w :: v :: ps) =
        w ++ ',' :: ' ' :: Text.join [',', ' '] (v :: ps) := by
      rw [Text.join_cons, Text.join_cons, List.flatMap_cons, List.append_assoc]
      rfl
    have hclosed : parameterBrackets.run 0 w = 0 :=
      (List.pairwise_cons.1 h.closed).1 v List.mem_cons_self
    have hcomma : parameterBrackets.separates (parameterBrackets.run 0 w) ',' = true :=
      separates_parameterBrackets.2 ⟨rfl, hclosed⟩
    have hrest : Splits (v :: ps) :=
      ⟨fun u hu => h.whole u (List.mem_cons_of_mem w hu), (List.pairwise_cons.1 h.closed).2⟩
    -- the space behind the comma belongs to the next piece
    have hkept : parameterBrackets.separates 0 ' ' = false := by decide
    obtain ⟨piece, pieces, hpieces, hspace⟩ :=
      exists_split_cons hkept (Text.join [',', ' '] (v :: ps))
    have hsame : v :: ps.map (' ' :: ·) = piece :: pieces := (ih hrest).symm.trans hpieces
    rw [List.cons.injEq] at hsame
    rw [hjoin, split_append_cons_of_whole (h.whole w List.mem_cons_self) hcomma, hclosed, hspace,
      ← hsame.1, ← hsame.2, List.map_cons]

end Splits

theorem splitParameters_eq (t : Text) : splitParameters t =
    ((parameterBrackets.split 0 t).map Text.spaced).filter (! ·.isEmpty) := rfl

theorem splits_splitParameters (t : Text) : Splits (splitParameters t) :=
  (splits_split t).map_spaced.filter _

theorem singleSpaced_of_mem_splitParameters (h : w ∈ splitParameters t) : w.SingleSpaced := by
  rw [splitParameters_eq] at h
  obtain ⟨hmem, hne⟩ := List.mem_filter.1 h
  obtain ⟨v, -, rfl⟩ := List.mem_map.1 hmem
  exact Text.singleSpaced_spaced (by simpa using hne)

/-- Parameters that were joined are split again where they were joined. -/
theorem splitParameters_join (t : Text) :
    splitParameters (Text.join [',', ' '] (splitParameters t)) = splitParameters t := by
  have hspaced : ∀ w ∈ splitParameters t, Text.spaced w = w := by
    intro w hw
    obtain ⟨v, -, rfl⟩ := List.mem_map.1 (List.mem_filter.1 hw).1
    exact Text.spaced_spaced v
  have hfilter : (splitParameters t).filter (! ·.isEmpty) = splitParameters t := by
    rw [splitParameters_eq, List.filter_filter]
    simp
  cases hps : splitParameters t with
  | nil => rfl
  | cons w ps =>
    have hsplits := splits_splitParameters t
    rw [hps] at hsplits hspaced hfilter
    obtain ⟨hw, hrest⟩ := List.forall_mem_cons.1 hspaced
    have hspace (v : Text) : Text.spaced (' ' :: v) = Text.spaced v :=
      congrArg (Text.join [' ']) (Text.words_append_cons (by decide) [] v)
    have hmap : (ps.map (' ' :: ·)).map Text.spaced = ps := by
      rw [List.map_map]
      conv_rhs => rw [← List.map_id ps]
      exact List.map_congr_left fun v hv => (hspace v).trans (hrest v hv)
    rw [splitParameters_eq, hsplits.split_join, List.map_cons, hw, hmap, hfilter]

/-- Only blanks and the commas that part the parameters are lost. -/
theorem solid_flatten_splitParameters (t : Text) :
    Text.solid (splitParameters t).flatten = Text.solid (withoutCommas [] t) := by
  have hsolid (ws : List Text) :
      Text.solid (ws.map Text.spaced).flatten = Text.solid ws.flatten := by
    induction ws with
    | nil => rfl
    | cons w ws ih =>
      rw [List.map_cons, List.flatten_cons, List.flatten_cons, Text.solid_append, Text.solid_append,
        Text.solid_spaced, ih]
  rw [splitParameters_eq, List.flatten_filter_not_isEmpty, hsolid,
    ← flatten_split_parameterBrackets]
  rfl

/-! ### Signatures -/

/-- What stands between the first opening parenthesis of a text and the last closing one. -/
def parenthesised (t : Text) : Text :=
  (((t.dropWhile (· ≠ '(')).drop 1).rdropWhile (· ≠ ')')).dropLast

theorem parenthesised_append {front : Text} (h : '(' ∉ front) (inside : Text) :
    parenthesised (front ++ '(' :: (inside ++ [')'])) = inside := by
  have hfront : ∀ c ∈ front, decide (c ≠ '(') = true := by
    intro c hc
    rw [decide_eq_true_iff]
    rintro rfl
    exact h hc
  rw [parenthesised, List.dropWhile_append_of_pos hfront, List.dropWhile_cons_of_neg (by simp),
    List.drop_one, List.tail_cons, List.rdropWhile_concat_neg _ _ _ (by simp),
    List.dropLast_concat]

/-- The pieces of a text hold nothing else than the text. -/
theorem Brackets.flatten_split_sublist (b : Brackets) (depth : Int) (t : Text) :
    (b.split depth t).flatten.Sublist t := by
  induction t generalizing depth with
  | nil => exact List.Sublist.refl []
  | cons c t ih =>
    cases hc : b.separates depth c with
    | true =>
      rw [split_cons_of_separates hc, List.flatten_cons, List.nil_append]
      exact (ih depth).cons c
    | false =>
      obtain ⟨piece, pieces, hpieces, hsplit⟩ := exists_split_cons hc t
      have hrest := ih (b.step depth c)
      rw [hpieces] at hrest
      rw [hsplit]
      exact hrest.cons_cons c

theorem isTypeChar_of_returnType {m : Match HeaderPart} {type : Text} {offset : Nat}
    (h : (Finder.ofPattern methodHeader t).find? offset = some m)
    (htype : m.text? t .returnType = some type) : ∀ c ∈ type, isTypeChar c = true := by
  intro c hc
  have hread := mayReadAs_of_find? h htype c hc
  simpa [methodHeader, methodComments, methodAnnotations, methodDeclaration, docComment,
    lineComment, annotationMark, modifierWords, methodModifiers, anyText, nested, indentation,
    named, maybe, maybeLazy, plus, someOf, someBlanks, blanks, word, text, mayReadAs, mayRead]
    using hread

/-- The parameters of a method are those between the parentheses of its signature. -/
theorem Found.parameters_eq {src : Source} {scope : Option Scope} {s : Stretch} {types : List Span}
    {m : Method} {title : Span} (h : Found src scope s types m title) :
    (splitParameters (parenthesised (m.record src scope s).signature.toList)).map String.ofList =
      (m.record src scope s).parameters := by
  have hparen : isWord '(' = false := by decide
  have hname : '(' ∉ m.header.text s.text .name := by
    rw [Match.text, Match.text?, h.shape.name_span]
    exact fun hmem => Bool.false_ne_true (hparen.symm.trans (h.shape.title_text _ hmem))
  have hinside := splitParameters_join (m.header.text s.text .parameters)
  simp only [Method.record, String.toList_ofList]
  cases htype : (m.header.text? s.text .returnType).bind fun u => (typeWords u).getLast? with
  | none => rw [parenthesised_append hname, hinside]
  | some type =>
    obtain ⟨u, hu, hlast⟩ := Option.bind_eq_some_iff.1 htype
    have htypeMem : '(' ∉ type := by
      intro hmem
      obtain ⟨offset, hfind⟩ := h.find
      have hpiece := (List.mem_filter.1 (List.mem_of_getLast? hlast)).1
      have hread := (flatten_split_sublist typeBrackets 0 u).subset
        (List.mem_flatten_of_mem hpiece hmem)
      have hchar := isTypeChar_of_returnType hfind hu '(' hread
      simp [isTypeChar, hparen] at hchar
    have hfront : '(' ∉ type ++ ' ' :: m.header.text s.text .name := by
      simp [htypeMem, hname]
    have hcall (call : Text) : type ++ ' ' :: (m.header.text s.text .name ++ call) =
        type ++ ' ' :: m.header.text s.text .name ++ call := by simp
    dsimp only
    rw [hcall, parenthesised_append hfront, hinside]

/-- Splitting parameters loses nothing but blanks and the commas at which as many brackets are
closed as opened, and the parameters joined are split again into the same. So the parameters of
every record are recovered from its signature. -/
theorem splitParameters_stable :
    (∀ t : Text, (∀ w ∈ splitParameters t, w.SingleSpaced) ∧
      Text.solid (splitParameters t).flatten = Text.solid (withoutCommas [] t) ∧
      splitParameters (Text.join [',', ' '] (splitParameters t)) = splitParameters t) ∧
    ∀ t : Text, ∀ r ∈ extract t,
      (splitParameters (parenthesised r.signature.toList)).map String.ofList = r.parameters := by
  constructor
  · intro t
    exact ⟨fun _ => singleSpaced_of_mem_splitParameters, solid_flatten_splitParameters t,
      splitParameters_join t⟩
  · intro t r hr
    obtain ⟨f, hf, rfl⟩ := List.mem_map.1 hr
    obtain ⟨_, -, -, hmethod⟩ := exists_reached_of_mem_findings hf
    obtain ⟨_, hfound⟩ := exists_found_of_mem_methods hmethod
    exact hfound.parameters_eq

/-- A method with commas inside the brackets of its parameters. -/
def annotatedParameters : Text :=
  "class A \x7b\n  int f(@Size(min = 1, max = 5) Map<K, V> m,\n    T t) \x7b\x7d\n\x7d\n".toList

theorem splitParameters_stable_annotatedParameters : ∃ r ∈ extract annotatedParameters,
    r.parameters = ["@Size(min = 1, max = 5) Map<K, V> m", "T t"] ∧
      (splitParameters (parenthesised r.signature.toList)).map String.ofList = r.parameters := by
  have hread : (extract annotatedParameters).map FunctionRecord.parameters =
      [["@Size(min = 1, max = 5) Map<K, V> m", "T t"]] := by decide +kernel
  obtain ⟨r, hr, hparameters⟩ := List.mem_map.1 (hread ▸ List.mem_singleton_self _)
  exact ⟨r, hr, hparameters, splitParameters_stable.2 annotatedParameters r hr⟩

end Glossator.Java
