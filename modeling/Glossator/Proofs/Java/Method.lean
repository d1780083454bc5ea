import Glossator.Proofs.Java.Block
import Glossator.Proofs.Java.Header
import Glossator.Proofs.Text.Span
import Glossator.Java.Method

/-!
# Where methods lie

The search for methods goes forward, so the methods of a stretch come one behind the other, each
with its header found behind the end of the one before it.

* `Java.exists_found_of_mem_methods`: what the search knows of each method it gives.
* `Java.pairwise_methods`: the methods of a stretch do not overlap.
* `Java.methodsAfter`: the methods found from a place on.
-/

set_option autoImplicit false

namespace Glossator.Java

variable {src : Source} {scope : Option Scope} {s : Stretch} {types : List Span}

/-- Where a method lies that a header declares: from the line of the declaration to the end of the
body, or to the semicolon in its place. -/
structure ExtentOf (t : Text) (m : Match HeaderPart) (e : Extent) : Prop where
  start_le : m.start ≤ e.lineStart
  lineStart_le : e.lineStart ≤ e.start
  header_le : m.stop ≤ e.stop
  stop_le : e.stop ≤ t.length
  body : ∀ b, e.body = some b → block? t (m.stop - 1) = some b ∧ b.opening = m.stop - 1 ∧
    b.stop = e.stop
  bodyless : e.body = none → e.stop = m.stop ∧ m.text t .terminator = [';']

theorem ExtentOf.of_extent? {t : Text} {m : Match HeaderPart} {title : Span} {e : Extent}
    (hm : MethodHeader t m title) (h : extent? t m = some e) : ExtentOf t m e := by
  have hstop : 0 < m.stop := by
    have := hm.title_le
    omega
  have hlead : (((m.span.slice t).takeWhile isBlank).reverse.takeWhile (· ≠ '\n')).length ≤
      ((m.span.slice t).takeWhile isBlank).length := by
    have hinitial := List.takeWhile_prefix (l := ((m.span.slice t).takeWhile isBlank).reverse)
      (· ≠ '\n')
    simpa using hinitial.length_le
  simp only [extent?] at h
  split at h
  · next hterminator =>
    cases h
    exact ⟨by simp only at *; omega, by simp only; omega, le_rfl, hm.stop_le, by simp,
      fun _ => ⟨rfl, hterminator⟩⟩
  · next hterminator =>
    obtain ⟨b, hb, rfl⟩ := Option.map_eq_some_iff.1 h
    obtain ⟨c, hc, hchar⟩ := hm.terminator_char
    -- the header ends with the brace, since it does not end with a semicolon
    have hbrace : t[m.stop - 1]? = some '{' := by
      rcases hchar with rfl | rfl
      · exact hc
      · refine absurd ?_ hterminator
        have hdrop : t.drop (m.stop - 1) ≠ [] := by
          rw [← List.head?_drop] at hc
          intro hnil
          simp [hnil] at hc
        rw [hm.terminator, List.take_one, List.head?_drop, hc]
        rfl
    have hopening := opening_eq_of_block? hb hbrace
    have hat := BlockAt.of_block? hb
    have hlt := hat.opening_lt
    refine ⟨by simp only at *; omega, by simp only; omega, by simp only; omega, hat.stop_le, ?_,
      by simp⟩
    intro b' hb'
    cases hb'
    exact ⟨hb, hopening, rfl⟩

/-- From a brace on there is a block. -/
theorem exists_block?_of_brace {t : Text} {i : Nat} (h : t[i]? = some '{') :
    ∃ b, block? t i = some b := by
  obtain ⟨hlt, hget⟩ := List.getElem?_eq_some_iff.1 h
  have hbody : (t.drop i).dropWhile (· ≠ '{') = '{' :: t.drop (i + 1) := by
    rw [List.drop_eq_getElem_cons hlt, hget]
    rfl
  simp only [block?, hbody]
  split <;> exact ⟨_, rfl⟩

/-- Every header declares something that takes up a part of the text. -/
theorem MethodHeader.exists_extent? {t : Text} {m : Match HeaderPart} {title : Span}
    (h : MethodHeader t m title) : ∃ e, extent? t m = some e := by
  obtain ⟨c, hget, hc⟩ := h.terminator_char
  simp only [extent?]
  split
  · exact ⟨_, rfl⟩
  · next hterminator =>
    rcases hc with rfl | rfl
    · obtain ⟨b, hb⟩ := exists_block?_of_brace hget
      exact ⟨_, by rw [hb, Option.map_some]⟩
    · refine absurd ?_ hterminator
      rw [h.terminator, List.take_one, List.head?_drop, hget]
      rfl

/-- A text whose blanks at its start do not reach up to some place in it has a character there or
before it that is not blank. -/
theorem exists_rest_of_isBlank_eq_false {u : Text} {k : Nat} {c : Char} (hc : u[k]? = some c)
    (hblank : isBlank c = false) :
    ∃ d rest, u = u.takeWhile isBlank ++ d :: rest ∧ isBlank d = false ∧
      (u.takeWhile isBlank).length ≤ k := by
  have hsplit := List.takeWhile_append_dropWhile (p := isBlank) (l := u)
  have hle : (u.takeWhile isBlank).length ≤ k := by
    by_contra hlt
    rw [← hsplit, List.getElem?_append_left (by omega)] at hc
    have hall := List.mem_takeWhile_imp (List.mem_of_getElem? hc)
    rw [hblank] at hall
    exact Bool.false_ne_true hall
  cases hrest : u.dropWhile isBlank with
  | nil =>
    rw [← hsplit, hrest, List.append_nil, List.getElem?_eq_none hle] at hc
    cases hc
  | cons d rest =>
    have hhead := List.head?_dropWhile_not isBlank u
    rw [hrest] at hhead
    exact ⟨d, rest, by rw [← hrest, hsplit], by simpa using hhead, hle⟩

/-- The lines of a method start where the blanks do that stand on the line of its first character
that is not blank. -/
theorem lines_of_extent? {t : Text} {m : Match HeaderPart} {e : Extent} (h : extent? t m = some e) :
    ∃ above since, (m.span.slice t).takeWhile isBlank = above ++ since ∧ '\n' ∉ since ∧
      (∀ c ∈ above.getLast?, c = '\n') ∧
      e.lineStart = m.start + above.length ∧ e.start = m.start + above.length + since.length := by
  have hplaces : e.start = m.start + ((m.span.slice t).takeWhile isBlank).length ∧
      e.lineStart = e.start -
        (((m.span.slice t).takeWhile isBlank).reverse.takeWhile (· ≠ '\n')).length := by
    simp only [extent?] at h
    split at h
    · cases h
      exact ⟨rfl, rfl⟩
    · obtain ⟨b, -, rfl⟩ := Option.map_eq_some_iff.1 h
      exact ⟨rfl, rfl⟩
  generalize (m.span.slice t).takeWhile isBlank = lead at hplaces
  have hlines := List.takeWhile_append_dropWhile (p := (· ≠ '\n')) (l := lead.reverse)
  have hlength := congrArg List.length hlines
  rw [List.length_append, List.length_reverse] at hlength
  refine ⟨(lead.reverse.dropWhile (· ≠ '\n')).reverse,
    (lead.reverse.takeWhile (· ≠ '\n')).reverse, ?_, ?_, ?_, ?_, ?_⟩
  · rw [← List.reverse_append, hlines, List.reverse_reverse]
  · intro hmem
    simpa using List.mem_takeWhile_imp (List.mem_reverse.1 hmem)
  · intro c hc
    have hhead := List.head?_dropWhile_not (· ≠ '\n') lead.reverse
    rw [List.getLast?_reverse] at hc
    rw [Option.mem_def.1 hc] at hhead
    simpa using hhead
  · rw [List.length_reverse]
    omega
  · rw [List.length_reverse, List.length_reverse]
    omega

/-- Before the first character of a method that is not blank, its line is blank. -/
theorem lead_of_extent? {t : Text} {m : Match HeaderPart} {title : Span} {e : Extent}
    (hm : MethodHeader t m title) (h : extent? t m = some e) :
    e.start + 1 < m.stop ∧ (∃ c, t[e.start]? = some c ∧ isBlank c = false) ∧
      ∀ c ∈ Span.slice ⟨e.lineStart, e.start⟩ t, isBlank c = true ∧ c ≠ '\n' := by
  have hstart := hm.start_le
  have htitle := hm.title_lt
  have hstop := hm.title_le
  have hlen := hm.stop_le
  have hget {k : Nat} (hk : k < m.stop - m.start) : (m.span.slice t)[k]? = t[m.start + k]? :=
    Span.getElem?_slice hk
  -- the name of the method is not blank, so the blanks end before it
  obtain ⟨c, hc⟩ : ∃ c, t[title.start]? = some c :=
    ⟨_, List.getElem?_eq_getElem (by omega : title.start < t.length)⟩
  have hblank : isBlank c = false := by
    apply isBlank_eq_false_of_isWord
    apply hm.title_text
    exact Span.mem_slice (Span.contains_iff.2 ⟨le_rfl, htitle⟩) hc
  have hat : (m.span.slice t)[title.start - m.start]? = some c := by
    rw [hget (by omega), Nat.add_sub_cancel' hstart, hc]
  obtain ⟨d, rest, hsplit, hd, hle⟩ := exists_rest_of_isBlank_eq_false hat hblank
  have hlead (x : Char) (hx : x ∈ (m.span.slice t).takeWhile isBlank) : isBlank x = true :=
    List.mem_takeWhile_imp hx
  obtain ⟨above, since, hlines, hnewline, -, hline, hfirst⟩ := lines_of_extent? h
  rw [hlines] at hsplit hle hlead
  rw [List.length_append] at hle
  refine ⟨by omega, ⟨d, ?_, hd⟩, ?_⟩
  · have hd : (m.span.slice t)[(above ++ since).length]? = some d := by
      rw [hsplit, List.getElem?_append_right le_rfl, Nat.sub_self]
      rfl
    rw [List.length_append, hget (by omega)] at hd
    rw [hfirst, Nat.add_assoc, hd]
  · have hslice : Span.slice ⟨e.lineStart, e.start⟩ t = since := by
      have htext := Span.eq_append_slice t (by omega : m.start ≤ m.stop)
      have hfront : (t.take m.start).length = m.start := by
        rw [List.length_take]
        omega
      change t = t.take m.start ++ m.span.slice t ++ _ at htext
      rw [hsplit] at htext
      have hpre : (t.take m.start ++ above) ++ since <+: t :=
        ⟨d :: rest ++ t.drop m.stop, by simpa using htext.symm⟩
      rw [← Span.slice_eq hpre, hline, hfirst]
      simp [hfront, Nat.add_assoc]
    rw [hslice]
    exact fun x hx => ⟨hlead x (List.mem_append_right _ hx), fun hx' => hnewline (hx' ▸ hx)⟩

/-- What the search knows of a method it gives: where its header was found, that it was accepted,
and where the method lies. -/
structure Found (src : Source) (scope : Option Scope) (s : Stretch) (types : List Span)
    (m : Method) (title : Span) : Prop where
  find : ∃ offset, (Finder.ofPattern methodHeader s.text).find? offset = some m.header
  shape : MethodHeader s.text m.header title
  own : isOwnMethod src scope s types m.header = true
  extent : extent? s.text m.header = some m.extent
  place : ExtentOf s.text m.header m.extent

/-- Each method was found from some place on that is not before the start of the search. -/
theorem exists_found_of_mem_methodsFrom {bound offset : Nat} {m : Method}
    (h : m ∈ methodsFrom src scope s types (.ofPattern methodHeader s.text) bound offset) :
    offset ≤ m.header.start ∧ ∃ title, Found src scope s types m title := by
  induction bound generalizing offset with
  | zero => cases h
  | succ bound ih =>
    rw [methodsFrom] at h
    split at h
    · cases h
    · next header hfind =>
      obtain ⟨title, hshape⟩ := MethodHeader.of_find? hfind
      have hle := Finder.start_le_of_find? hfind
      have hstop := (Finder.start_le_stop_of_find? hfind).1
      split at h
      · next hown =>
        split at h
        · cases h
        · next e he =>
          have hplace := ExtentOf.of_extent? hshape he
          have hheader := hplace.header_le
          rcases List.mem_cons.1 h with rfl | h
          · exact ⟨hle, title, ⟨⟨offset, hfind⟩, hshape, hown, he, hplace⟩⟩
          · obtain ⟨hoffset, hfound⟩ := ih h
            exact ⟨by omega, hfound⟩
      · obtain ⟨hoffset, hfound⟩ := ih h
        exact ⟨by omega, hfound⟩

/-- What the search of a stretch knows of each method it gives. -/
theorem exists_found_of_mem_methods {m : Method} (h : m ∈ methods src scope s) :
    ∃ title, Found src scope s ((typeDeclarations src s).map TypeDeclaration.extent) m title :=
  (exists_found_of_mem_methodsFrom h).2

/-- The methods that a search gives lie one behind the other. -/
theorem pairwise_methodsFrom (bound offset : Nat) :
    (methodsFrom src scope s types (.ofPattern methodHeader s.text) bound offset).Pairwise
      fun m m' => m.extent.stop ≤ m'.header.start := by
  induction bound generalizing offset with
  | zero => exact .nil
  | succ bound ih =>
    rw [methodsFrom]
    split
    · exact .nil
    · split
      · split
        · exact .nil
        · refine .cons ?_ (ih _)
          intro m' hm'
          exact (exists_found_of_mem_methodsFrom hm').1
      · exact ih _

/-- The methods of a stretch lie one behind the other. -/
theorem pairwise_methods (src : Source) (scope : Option Scope) (s : Stretch) :
    (methods src scope s).Pairwise fun m m' => m.extent.stop ≤ m'.header.start :=
  pairwise_methodsFrom _ _

/-! ### One after another -/

theorem MethodHeader.start_lt_stop {t : Text} {m : Match HeaderPart} {title : Span}
    (h : MethodHeader t m title) : m.start < m.stop :=
  (h.start_le.trans_lt h.title_lt).trans h.title_le

/-- The bound on the number of methods does not matter once it covers the places left. -/
theorem methodsFrom_eq_of_le {bound bound' offset : Nat} (h : s.text.length + 1 ≤ bound + offset)
    (h' : s.text.length + 1 ≤ bound' + offset) :
    methodsFrom src scope s types (.ofPattern methodHeader s.text) bound offset =
      methodsFrom src scope s types (.ofPattern methodHeader s.text) bound' offset := by
  have hnone {offset : Nat} (hoffset : s.text.length + 1 ≤ offset) :
      (Finder.ofPattern methodHeader s.text).find? offset = none :=
    Finder.find?_eq_none_iff.2 fun i hi hlen => by omega
  induction bound generalizing bound' offset with
  | zero =>
    cases bound' with
    | zero => rfl
    | succ bound' => rw [methodsFrom, methodsFrom, hnone (by omega)]
  | succ bound ih =>
    cases bound' with
    | zero => rw [methodsFrom, methodsFrom, hnone (by omega)]
    | succ bound' =>
      rw [methodsFrom, methodsFrom]
      split
      · rfl
      · next m hfind =>
        obtain ⟨title, hshape⟩ := MethodHeader.of_find? hfind
        have hle := Finder.start_le_of_find? hfind
        have hlt := hshape.start_lt_stop
        split
        · split
          · rfl
          · next e he =>
            have hheader := (ExtentOf.of_extent? hshape he).header_le
            congr 1
            exact ih (by omega) (by omega)
        · exact ih (by omega) (by omega)

/-- The methods found from a place on. -/
def methodsAfter (src : Source) (scope : Option Scope) (s : Stretch) (types : List Span)
    (offset : Nat) : List Method :=
  methodsFrom src scope s types (.ofPattern methodHeader s.text) (s.text.length + 1 - offset) offset

theorem methods_eq_methodsAfter : methods src scope s =
    methodsAfter src scope s ((typeDeclarations src s).map TypeDeclaration.extent) 0 := rfl

/-- Places where no header stands are passed over. -/
theorem methodsAfter_eq_of_forall {offset offset' : Nat} (hle : offset ≤ offset')
    (hlen : offset' ≤ s.text.length)
    (h : ∀ i, offset ≤ i → i < offset' → methodHeader.matchAt? s.text i = none) :
    methodsAfter src scope s types offset = methodsAfter src scope s types offset' := by
  have hbound : methodsAfter src scope s types offset' =
      methodsFrom src scope s types (.ofPattern methodHeader s.text)
        (s.text.length + 1 - offset) offset' :=
    methodsFrom_eq_of_le (by omega) (by omega)
  obtain ⟨bound, hb⟩ : ∃ bound, s.text.length + 1 - offset = bound + 1 :=
    ⟨s.text.length - offset, by omega⟩
  rw [hbound, methodsAfter, hb, methodsFrom, methodsFrom, Finder.find?_eq_of_forall hle h]

/-- No methods are found where no header stands any more. -/
theorem methodsAfter_eq_nil {offset : Nat}
    (h : ∀ i, offset ≤ i → i ≤ s.text.length → methodHeader.matchAt? s.text i = none) :
    methodsAfter src scope s types offset = [] := by
  rw [methodsAfter]
  cases s.text.length + 1 - offset with
  | zero => rfl
  | succ bound => rw [methodsFrom, Finder.find?_eq_none_iff.2 h]

/-- The search goes on behind the header that it finds, or behind the method if it is one of the
scope itself. -/
theorem methodsAfter_of_find? {offset : Nat} {m : Match HeaderPart}
    (hfind : (Finder.ofPattern methodHeader s.text).find? offset = some m) :
    methodsAfter src scope s types offset =
      if isOwnMethod src scope s types m then
        match extent? s.text m with
        | none => []
        | some e => ⟨m, e⟩ :: methodsAfter src scope s types e.stop
      else methodsAfter src scope s types m.stop := by
  obtain ⟨title, hshape⟩ := MethodHeader.of_find? hfind
  have hle := Finder.start_le_of_find? hfind
  have hlt := hshape.start_lt_stop
  have hlen := hshape.stop_le
  obtain ⟨bound, hb⟩ : ∃ bound, s.text.length + 1 - offset = bound + 1 :=
    ⟨s.text.length - offset, by omega⟩
  rw [methodsAfter, hb, methodsFrom, hfind]
  dsimp only
  by_cases hown : isOwnMethod src scope s types m = true
  · rw [if_pos hown, if_pos hown]
    cases he : extent? s.text m with
    | none => rfl
    | some e =>
      have hplace := ExtentOf.of_extent? hshape he
      have hheader := hplace.header_le
      have hstop := hplace.stop_le
      refine congrArg (⟨m, e⟩ :: ·) (methodsFrom_eq_of_le ?_ ?_)
      all_goals omega
  · rw [if_neg hown, if_neg hown]
    exact methodsFrom_eq_of_le (by omega) (by omega)

/-- The search takes a method of the scope itself and goes on behind it. -/
theorem methodsAfter_of_own {offset : Nat} {m : Match HeaderPart} {e : Extent}
    (hfind : (Finder.ofPattern methodHeader s.text).find? offset = some m)
    (hown : isOwnMethod src scope s types m = true) (he : extent? s.text m = some e) :
    methodsAfter src scope s types offset = ⟨m, e⟩ :: methodsAfter src scope s types e.stop := by
  rw [methodsAfter_of_find? hfind, if_pos hown, he]

/-- The search goes on behind a header that is none of the scope itself. -/
theorem methodsAfter_of_not_own {offset : Nat} {m : Match HeaderPart}
    (hfind : (Finder.ofPattern methodHeader s.text).find? offset = some m)
    (hown : isOwnMethod src scope s types m = false) :
    methodsAfter src scope s types offset = methodsAfter src scope s types m.stop := by
  rw [methodsAfter_of_find? hfind, hown, if_neg Bool.false_ne_true]

end Glossator.Java
